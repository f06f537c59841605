import Mathlib.Data.List.Basic
import Mathlib.Logic.Function.Basic

/-!
# Regular expressions

A backtracking matcher of regular expressions with groups, for the expressions whose
repetitions are of one character of a set (`Regex.run`): it lists the ways to match the
start of a text, in the order it tries them in. What it is to match one is a relation
(`Regex.Matches`), between what is left of the text and the groups matched so far, before
and after. The matcher finds the ways there are (`mem_run`), hence a match if there is one
(`firstMatch_eq_none_iff`), and the one there is if there is one only (`firstMatch_eq_some_iff`).

Whether there is one only is mostly a matter of where the repetitions end. One that goes on
as long as the set has the next character ends in one place (`eq_of_ends`).
-/

variable {α : Type*}

/-- An expression. A repetition is greedy, as is an optional part: the most is tried
    first. -/
inductive Regex (α : Type*)
  /-- A character of a set. -/
  | set (p : α → Bool)
  /-- Between `lo` and `hi` characters of a set; any number from `lo` on without `hi`. -/
  | many (p : α → Bool) (lo : ℕ) (hi : Option ℕ)
  | seq (r r' : Regex α)
  | alt (r r' : Regex α)
  | opt (r : Regex α)
  | group (i : ℕ) (r : Regex α)
  /-- A test of what is left of the text, of which it takes nothing. -/
  | ahead (q : List α → Bool)

namespace Regex

/-- The texts that the groups have matched last. -/
abbrev Groups (α : Type*) := ℕ → Option (List α)

/-- The expression matches the start of a text, and leaves the rest of it. -/
inductive Matches : Regex α → List α → Groups α → List α → Groups α → Prop
  | set {p c l g} (hc : p c = true) : Matches (set p) (c :: l) g l g
  | many {p lo hi w l g} (hw : ∀ c ∈ w, p c = true) (hlo : lo ≤ w.length)
      (hhi : ∀ n ∈ hi, w.length ≤ n) : Matches (many p lo hi) (w ++ l) g l g
  | seq {r r' l g l₁ g₁ l₂ g₂} (h : Matches r l g l₁ g₁) (h' : Matches r' l₁ g₁ l₂ g₂) :
      Matches (seq r r') l g l₂ g₂
  | left {r r' l g l₁ g₁} (h : Matches r l g l₁ g₁) : Matches (alt r r') l g l₁ g₁
  | right {r r' l g l₁ g₁} (h : Matches r' l g l₁ g₁) : Matches (alt r r') l g l₁ g₁
  | here {r l g l₁ g₁} (h : Matches r l g l₁ g₁) : Matches (opt r) l g l₁ g₁
  | skip {r l g} : Matches (opt r) l g l g
  | group {i r w l g g₁} (h : Matches r (w ++ l) g l g₁) :
      Matches (group i r) (w ++ l) g l (Function.update g₁ i (some w))
  | ahead {q l g} (hq : q l = true) : Matches (ahead q) l g l g

/-- The most characters of the set a repetition can take. -/
def most (p : α → Bool) (hi : Option ℕ) (l : List α) : ℕ :=
  match hi with
  | none => (l.takeWhile p).length
  | some n => min n (l.takeWhile p).length

/-- The ways to match the start of a text, in the order they are tried in: a repetition
    takes the most it can, and gives back one character at a time. -/
def run : Regex α → List α → Groups α → List (List α × Groups α)
  | set p, l, g =>
    match l with
    | [] => []
    | c :: l => if p c then [(l, g)] else []
  | many p lo hi, l, g =>
    ((List.range (most p hi l + 1)).reverse.filter (lo ≤ ·)).map fun n => (l.drop n, g)
  | seq r r', l, g => (r.run l g).flatMap fun (l', g') => r'.run l' g'
  | alt r r', l, g => r.run l g ++ r'.run l g
  | opt r, l, g => r.run l g ++ [(l, g)]
  | group i r, l, g => (r.run l g).map fun (l', g') =>
      (l', Function.update g' i (some (l.take (l.length - l'.length))))
  | ahead q, l, g => if q l then [(l, g)] else []

/-- The match of the start of a text: the first that is found. -/
def firstMatch (r : Regex α) (l : List α) : Option (List α × Groups α) :=
  (r.run l fun _ => none).head?

variable {r r' : Regex α} {p : α → Bool} {q : List α → Bool} {l l' w w' : List α}
  {g g' : Groups α} {lo n i : ℕ} {hi : Option ℕ}

/-- What is left is the end of the text. -/
theorem Matches.suffix (h : r.Matches l g l' g') : l' <:+ l := by
  induction h with
  | set _ => exact List.suffix_cons _ _
  | many _ _ _ => exact List.suffix_append _ _
  | seq _ _ ih ih' => exact ih'.trans ih
  | left _ ih | right _ ih | here _ ih => exact ih
  | skip | ahead _ => exact List.suffix_rfl
  | group _ _ => exact List.suffix_append _ _

/-! ### The ways that are tried -/

theorem le_takeWhile_iff :
    n ≤ (l.takeWhile p).length ↔ n ≤ l.length ∧ ∀ c ∈ l.take n, p c = true := by
  induction l generalizing n with
  | nil => simp
  | cons c l ih =>
    cases n with
    | zero => simp
    | succ n =>
      by_cases hc : p c = true
      · simp [hc, ih]
      · simp [hc]

theorem le_most_iff :
    n ≤ most p hi l ↔ (n ≤ l.length ∧ ∀ c ∈ l.take n, p c = true) ∧ ∀ m ∈ hi, n ≤ m := by
  rw [← le_takeWhile_iff]
  cases hi with
  | none => simp [most]
  | some m =>
    rw [most, Nat.le_min, and_comm]
    simp

theorem matches_set_iff : (set p).Matches l g l' g' ↔ ∃ c, p c = true ∧ l = c :: l' ∧ g' = g := by
  constructor
  · intro h
    cases h with
    | set hc => exact ⟨_, hc, rfl, rfl⟩
  · rintro ⟨c, hc, rfl, rfl⟩
    exact .set hc

theorem matches_many_iff : (many p lo hi).Matches l g l' g' ↔
    ∃ w, (∀ c ∈ w, p c = true) ∧ lo ≤ w.length ∧ (∀ n ∈ hi, w.length ≤ n) ∧ l = w ++ l' ∧
      g' = g := by
  constructor
  · intro h
    cases h with
    | many hw hlo hhi => exact ⟨_, hw, hlo, hhi, rfl, rfl⟩
  · rintro ⟨w, hw, hlo, hhi, rfl, rfl⟩
    exact .many hw hlo hhi

theorem matches_seq_iff {l₂ : List α} {g₂ : Groups α} : (seq r r').Matches l g l₂ g₂ ↔
    ∃ l₁ g₁, r.Matches l g l₁ g₁ ∧ r'.Matches l₁ g₁ l₂ g₂ := by
  constructor
  · intro h
    cases h with
    | seq h h' => exact ⟨_, _, h, h'⟩
  · rintro ⟨l₁, g₁, h, h'⟩
    exact .seq h h'

theorem matches_alt_iff :
    (alt r r').Matches l g l' g' ↔ r.Matches l g l' g' ∨ r'.Matches l g l' g' := by
  constructor
  · intro h
    cases h with
    | left h => exact .inl h
    | right h => exact .inr h
  · rintro (h | h)
    · exact .left h
    · exact .right h

theorem matches_opt_iff :
    (opt r).Matches l g l' g' ↔ r.Matches l g l' g' ∨ l' = l ∧ g' = g := by
  constructor
  · intro h
    cases h with
    | here h => exact .inl h
    | skip => exact .inr ⟨rfl, rfl⟩
  · rintro (h | ⟨rfl, rfl⟩)
    · exact .here h
    · exact .skip

theorem matches_group_iff : (group i r).Matches l g l' g' ↔
    ∃ w g₁, l = w ++ l' ∧ r.Matches l g l' g₁ ∧ g' = Function.update g₁ i (some w) := by
  constructor
  · intro h
    cases h with
    | group h => exact ⟨_, _, rfl, h, rfl⟩
  · rintro ⟨w, g₁, rfl, h, rfl⟩
    exact .group h

theorem matches_ahead_iff : (ahead q).Matches l g l' g' ↔ q l = true ∧ l' = l ∧ g' = g := by
  constructor
  · intro h
    cases h with
    | ahead hq => exact ⟨hq, rfl, rfl⟩
  · rintro ⟨hq, rfl, rfl⟩
    exact .ahead hq

theorem mem_run_many : (l', g') ∈ (many p lo hi).run l g ↔ (many p lo hi).Matches l g l' g' := by
  rw [matches_many_iff]
  simp only [run, List.mem_map, List.mem_filter, List.mem_reverse, List.mem_range,
    Nat.lt_succ_iff, decide_eq_true_eq, Prod.mk.injEq]
  constructor
  · rintro ⟨n, ⟨hn, hlo⟩, rfl, rfl⟩
    obtain ⟨⟨hlen, hw⟩, hhi⟩ := le_most_iff.1 hn
    have hn : (l.take n).length = n := List.length_take_of_le hlen
    exact ⟨l.take n, hw, hn.symm ▸ hlo, hn.symm ▸ hhi, (List.take_append_drop n l).symm, rfl⟩
  · rintro ⟨w, hw, hlo, hhi, rfl, rfl⟩
    refine ⟨w.length, ⟨le_most_iff.2 ⟨⟨by simp, ?_⟩, hhi⟩, hlo⟩, List.drop_left, rfl⟩
    rwa [List.take_left]

/-- The matcher finds the ways there are to match. -/
theorem mem_run : (l', g') ∈ r.run l g ↔ r.Matches l g l' g' := by
  induction r generalizing l g l' g' with
  | set p =>
    rw [matches_set_iff]
    cases l with
    | nil => simp [run]
    | cons c l =>
      rw [run]
      split
      case isTrue hc => simp [hc, eq_comm (a := l') (b := l)]
      case isFalse hc => simp [hc]
  | many p lo hi => exact mem_run_many
  | seq r r' ih ih' =>
    rw [matches_seq_iff]
    simp only [run, List.mem_flatMap, Prod.exists, ih, ih']
  | alt r r' ih ih' => rw [matches_alt_iff, run, List.mem_append, ih, ih']
  | opt r ih => rw [matches_opt_iff, run, List.mem_append, ih, List.mem_singleton, Prod.mk.injEq]
  | group i r ih =>
    rw [matches_group_iff]
    simp only [run, List.mem_map, Prod.exists, Prod.mk.injEq, ih]
    constructor
    · rintro ⟨l₁, g₁, h, rfl, rfl⟩
      obtain ⟨w, rfl⟩ := h.suffix
      exact ⟨w, g₁, rfl, h, by simp⟩
    · rintro ⟨w, g₁, rfl, h, rfl⟩
      exact ⟨l', g₁, h, rfl, by simp⟩
  | ahead q =>
    rw [matches_ahead_iff, run]
    split
    case isTrue hq => simp [hq]
    case isFalse hq => simp [hq]

/-- There is no match if none is found. -/
theorem firstMatch_eq_none_iff :
    r.firstMatch l = none ↔ ∀ l' g', ¬r.Matches l (fun _ => none) l' g' := by
  rw [firstMatch, List.head?_eq_none_iff, List.eq_nil_iff_forall_not_mem, Prod.forall]
  exact forall₂_congr fun l' g' => not_congr mem_run

/-- What is found is a match. -/
theorem matches_of_firstMatch (h : r.firstMatch l = some (l', g')) :
    r.Matches l (fun _ => none) l' g' :=
  mem_run.1 (List.mem_of_mem_head? h)

/-! ### Where a repetition ends -/

/-- The text does not start with a character of the set. -/
def Ends (p : α → Bool) (l : List α) : Prop := ∀ c ∈ l.head?, p c = false

/-- A repetition that goes on as long as the set has the next character ends in one place. -/
theorem eq_of_ends (hw : ∀ c ∈ w, p c = true) (hw' : ∀ c ∈ w', p c = true) (hl : Ends p l)
    (hl' : Ends p l') (h : w ++ l = w' ++ l') : w = w' ∧ l = l' := by
  have htake {w l : List α} (hw : ∀ c ∈ w, p c = true) (hl : Ends p l) :
      (w ++ l).takeWhile p = w := by
    rw [List.takeWhile_append_of_pos hw]
    cases l with
    | nil => simp
    | cons c l => simp [hl c rfl]
  have heq : w = w' := by rw [← htake hw hl, h, htake hw' hl']
  subst heq
  exact ⟨rfl, List.append_cancel_left h⟩

end Regex
