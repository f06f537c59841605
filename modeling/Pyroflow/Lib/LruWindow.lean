import Mathlib.Algebra.Order.Monoid.Unbundled.Basic
import Mathlib.Data.List.Nodup
import Pyroflow.Lib.TtlCache

/-!
# What a cache still knows

A cache that drops the least recently used (`Mapping.EvictsLru`), when it has only been assigned
to: what is found in it can be told from the assignments made (`Mapping.lookup_assigned_iff`). An
entry is found if it is the last one assigned to its key, has not expired, and less than
`maxKeys` other keys have been assigned to since.

The cache drops entries when they have expired, and when there are too many, both at an
assignment. That does not matter: the entries newer than one that has not expired have not
expired, so that the cut to the unexpired entries and the cut to the newest commute
(`filter_take`).
-/

namespace Mapping

variable {K V Time : Type} [DecidableEq K]

/-- The last assignment to each key of a history, which goes back in time. -/
def newest : List (K × Entry V Time) → List (K × Entry V Time)
  | [] => []
  | e :: es => e :: (newest es).filter fun e' => e'.1 ≠ e.1

variable {e : K × Entry V Time} {es es' : List (K × Entry V Time)} {k : K} {n : ℕ}

theorem newest_sublist : (newest es).Sublist es := by
  induction es with
  | nil => exact .slnil
  | cons e es ih => exact (List.filter_sublist.trans ih).cons_cons e

theorem nodup_newest : ((newest es).map Prod.fst).Nodup := by
  induction es with
  | nil => exact List.nodup_nil
  | cons e es ih =>
    rw [newest, List.map_cons, List.nodup_cons]
    refine ⟨fun h => ?_, ih.sublist (List.filter_sublist.map _)⟩
    obtain ⟨e', he', heq⟩ := List.mem_map.1 h
    exact of_decide_eq_true (List.mem_filter.1 he').2 heq

theorem mem_map_newest : k ∈ (newest es).map Prod.fst ↔ k ∈ es.map Prod.fst := by
  induction es with
  | nil => rfl
  | cons e es ih =>
    rw [newest, List.map_cons, List.mem_cons, List.map_cons, List.mem_cons, ← ih]
    refine or_congr_right' fun hne => ?_
    simp only [List.mem_map, List.mem_filter, decide_eq_true_iff]
    constructor
    · rintro ⟨e', ⟨he', -⟩, rfl⟩
      exact ⟨e', he', rfl⟩
    · rintro ⟨e', he', rfl⟩
      exact ⟨e', ⟨he', hne⟩, rfl⟩

/-- What was assigned before counts for the keys not assigned to since. -/
theorem newest_append : newest (es ++ es') =
    newest es ++ (newest es').filter fun e => e.1 ∉ es.map Prod.fst := by
  induction es with
  | nil => simp [newest]
  | cons e es ih =>
    rw [List.cons_append, newest, ih, newest, List.filter_append, List.filter_filter,
      List.cons_append]
    congr 3
    funext e'
    simp only [List.map_cons, List.mem_cons, not_or, Bool.decide_and]

theorem length_newest : (newest es).length = (es.map Prod.fst).toFinset.card := by
  rw [← List.length_map Prod.fst, ← List.toFinset_card_of_nodup nodup_newest]
  congr 1
  ext k
  rw [List.mem_toFinset, List.mem_toFinset, mem_map_newest]

/-- The `n` newest assignments: less than `n` other keys have been assigned to since. -/
theorem mem_take_newest_iff : e ∈ (newest es).take n ↔ ∃ after before,
    es = after ++ e :: before ∧ e.1 ∉ after.map Prod.fst ∧
      (after.map Prod.fst).toFinset.card < n := by
  have hsplit : ∀ {after before}, e.1 ∉ after.map Prod.fst →
      (e ∈ (newest (after ++ e :: before)).take n ↔ (newest after).length < n) := by
    intro after before hnew
    have heq : newest (after ++ e :: before) = newest after ++ e ::
        ((newest before).filter fun e' => e'.1 ≠ e.1).filter fun e' => e'.1 ∉ after.map Prod.fst := by
      rw [newest_append, newest, List.filter_cons_of_pos (by simpa using hnew)]
    have hout : e ∉ newest after := fun h =>
      hnew (mem_map_newest.1 (List.mem_map_of_mem h))
    rw [heq]
    constructor
    · intro h
      by_contra hle
      rw [List.take_append_of_le_length (Nat.le_of_not_lt hle)] at h
      exact hout (List.mem_of_mem_take h)
    · intro hlt
      rw [List.take_append, List.mem_append]
      obtain ⟨m, hm⟩ : ∃ m, n - (newest after).length = m + 1 := ⟨_, (Nat.succ_pred (by omega)).symm⟩
      rw [hm, List.take_succ_cons]
      exact .inr List.mem_cons_self
  constructor
  · intro h
    obtain ⟨after, before, rfl, hnew⟩ : ∃ after before, es = after ++ e :: before ∧
        e.1 ∉ after.map Prod.fst := by
      have hmem := List.mem_of_mem_take h
      clear h hsplit
      induction es with
      | nil => exact absurd hmem List.not_mem_nil
      | cons e' es ih =>
        rcases List.mem_cons.1 hmem with rfl | hmem
        · exact ⟨[], es, rfl, List.not_mem_nil⟩
        · obtain ⟨hmem, hne⟩ := List.mem_filter.1 hmem
          obtain ⟨after, before, rfl, hnew⟩ := ih hmem
          refine ⟨e' :: after, before, rfl, ?_⟩
          rw [List.map_cons, List.mem_cons, not_or]
          exact ⟨of_decide_eq_true hne, hnew⟩
    refine ⟨after, before, rfl, hnew, ?_⟩
    rw [← length_newest]
    exact (hsplit hnew).1 h
  · rintro ⟨after, before, rfl, hnew, hlt⟩
    rw [← length_newest] at hlt
    exact (hsplit hnew).2 hlt

/-! ### The two cuts -/

omit [DecidableEq K] in
/-- Cutting to a prefix and to those that meet a condition commute, if what comes before one
    that meets it does. -/
theorem filter_take {α : Type*} {p : α → Bool} {xs : List α}
    (h : xs.Pairwise fun x y => p y = true → p x = true) :
    (xs.take n).filter p = (xs.filter p).take n := by
  induction xs generalizing n with
  | nil => simp
  | cons x xs ih =>
    obtain ⟨hx, hxs⟩ := List.pairwise_cons.1 h
    cases n with
    | zero => rfl
    | succ n =>
      rw [List.take_succ_cons]
      cases hp : p x with
      | true =>
        rw [List.filter_cons_of_pos hp, List.filter_cons_of_pos hp, List.take_succ_cons, ih hxs]
      | false =>
        -- None that comes after meets it.
        have hnone : ∀ y ∈ xs, ¬p y = true := fun y hy hpy => by simp [hx y hy hpy] at hp
        rw [List.filter_cons_of_neg (by simp [hp]), List.filter_cons_of_neg (by simp [hp]),
          List.filter_eq_nil_iff.2 hnone, List.filter_eq_nil_iff.2 fun y hy =>
            hnone y (List.mem_of_mem_take hy), List.take_nil]

/-- One key less leaves room for one more. -/
theorem take_filter_take (h : (es.map Prod.fst).Nodup) :
    ((es.take (n + 1)).filter fun e => e.1 ≠ k).take n = (es.filter fun e => e.1 ≠ k).take n := by
  induction es generalizing n with
  | nil => simp
  | cons e es ih =>
    rw [List.map_cons, List.nodup_cons] at h
    rw [List.take_succ_cons]
    by_cases hk : e.1 = k
    · have hall : ∀ e' ∈ es, decide (e'.1 ≠ k) = true := fun e' he' => decide_eq_true fun heq =>
        h.1 (hk.trans heq.symm ▸ List.mem_map_of_mem he')
      rw [List.filter_cons_of_neg (by simpa using hk), List.filter_cons_of_neg (by simpa using hk),
        List.filter_eq_self.2 hall, List.filter_eq_self.2 fun e' he' =>
          hall e' (List.mem_of_mem_take he'), List.take_take, Nat.min_self]
    · rw [List.filter_cons_of_pos (by simpa using hk), List.filter_cons_of_pos (by simpa using hk)]
      cases n with
      | zero => rfl
      | succ n => rw [List.take_succ_cons, List.take_succ_cons, ih h.2]

/-! ### The entries of the cache -/

variable [LinearOrder Time] [Add Time] {M : Mapping K V Time} {ttl now : Time} {maxKeys : ℕ}
  {c : M.TtlCache ttl maxKeys} {d : M.Dict} {v : V}

/-- The entries of a cache, the most recently used first. -/
structure Holds (l : EvictsLru c) (d : M.Dict) (es : List (K × Entry V Time)) : Prop where
  recent : l.recent d = es.map Prod.fst
  entries : ∀ k e, c.entry d k = some e ↔ (k, e) ∈ es

/-- The entry has not expired. -/
def Live (ttl now : Time) (e : K × Entry V Time) : Bool := now < e.2.assigned + ttl

/-- The other entries that have not expired, after an assignment to a key. -/
def others (ttl now : Time) (k : K) (es : List (K × Entry V Time)) : List (K × Entry V Time) :=
  es.filter fun e => Live ttl now e && e.1 ≠ k

theorem Holds.nodup {l : EvictsLru c} (h : Holds l d es) : (es.map Prod.fst).Nodup :=
  h.recent ▸ l.nodup_recent d

/-- What an assignment leaves. -/
theorem Holds.assign {l : EvictsLru c} (h : Holds l d es) :
    Holds l (M.assign d now k v) ((k, ⟨v, now⟩) :: (others ttl now k es).take (maxKeys - 1)) := by
  -- The keys it keeps are those of the newest of the others.
  have hrecent : l.recent (M.assign d now k v) =
      k :: ((others ttl now k es).take (maxKeys - 1)).map Prod.fst := by
    rw [l.recent_assign, h.recent, List.filter_map, ← List.map_take, others]
    congr 3
    refine List.filter_congr fun e he => ?_
    rw [Function.comp_apply, c.lookup_eq, (h.entries e.1 e.2).2 he, Option.filter_some]
    simp only [Live]
    split <;> simp_all
  refine ⟨hrecent, fun k' e => ?_⟩
  by_cases hk : k' = k
  · subst hk
    have hnot : (k', e) ∉ (others ttl now k' es).take (maxKeys - 1) := fun hmem => by
      simpa [others] using List.mem_of_mem_take hmem
    rw [l.entry_assign, List.mem_cons, or_iff_left hnot, Option.some_inj, Prod.mk.injEq]
    exact ⟨fun heq => ⟨rfl, heq.symm⟩, fun heq => heq.2.symm⟩
  · rw [List.mem_cons, or_iff_right fun heq => hk (congrArg Prod.fst heq)]
    have hsub {e : Entry V Time} (hmem : (k', e) ∈ (others ttl now k es).take (maxKeys - 1)) :
        (k', e) ∈ es := List.mem_of_mem_filter (List.mem_of_mem_take hmem)
    -- An entry that is kept is as it was.
    have hkept : ∀ e, c.entry (M.assign d now k v) k' = some e → (k', e) ∈ es := fun e he =>
      (h.entries k' e).1 (c.of_entry_assign hk he)
    have hmem : (c.entry (M.assign d now k v) k').isSome = true ↔
        ∃ e, (k', e) ∈ (others ttl now k es).take (maxKeys - 1) := by
      rw [← l.mem_recent, hrecent, List.mem_cons, or_iff_right hk, List.mem_map]
      exact ⟨fun ⟨⟨_, e⟩, he, heq⟩ => ⟨e, heq ▸ he⟩, fun ⟨e, he⟩ => ⟨_, he, rfl⟩⟩
    constructor
    · intro he
      obtain ⟨e', he'⟩ := hmem.1 (Option.isSome_iff_exists.2 ⟨e, he⟩)
      have heq := List.inj_on_of_nodup_map h.nodup (hsub he') (hkept e he) rfl
      exact heq ▸ he'
    · intro he
      obtain ⟨e', he'⟩ := Option.isSome_iff_exists.1 (hmem.2 ⟨e, he⟩)
      have heq := List.inj_on_of_nodup_map h.nodup (hkept e' he') (hsub he) rfl
      rw [he', (Prod.mk.inj heq).2]

/-! ### What is found -/

omit [DecidableEq K] [LinearOrder Time] [Add Time] in
variable (M) in
/-- The assignments of a history, made to an empty mapping. -/
def assigned : List (K × Entry V Time) → M.Dict
  | [] => M.empty
  | e :: es => M.assign (assigned es) e.2.assigned e.1 e.2.value

/-- The history goes back in time. -/
def Backward (es : List (K × Entry V Time)) : Prop :=
  es.Pairwise fun e e' => e'.2.assigned ≤ e.2.assigned

omit [DecidableEq K] in
/-- What is newer than an entry that has not expired has not expired. -/
theorem Backward.live [AddRightMono Time] (h : Backward es) :
    es.Pairwise fun e e' => Live ttl now e' = true → Live ttl now e = true :=
  h.imp fun hle hlive => decide_eq_true <|
    lt_of_lt_of_le (of_decide_eq_true hlive) (add_le_add_left hle ttl)

/-- At any later time, the unexpired entries of the cache are those among the newest. -/
theorem exists_holds_assigned [AddRightMono Time] (l : EvictsLru c) (hmax : 0 < maxKeys)
    (h : Backward es) : ∃ kept, Holds l (assigned M es) kept ∧
      ∀ now, (∀ e ∈ es, e.2.assigned ≤ now) →
        kept.filter (Live ttl now) = ((newest es).take maxKeys).filter (Live ttl now) := by
  obtain ⟨n, rfl⟩ : ∃ n, maxKeys = n + 1 := ⟨maxKeys - 1, (Nat.sub_add_cancel hmax).symm⟩
  induction es with
  | nil =>
    have hnone : ∀ k, c.entry M.empty k = none := c.entry_empty
    refine ⟨[], ⟨?_, fun k e => ?_⟩, fun _ _ => by simp [newest]⟩
    · refine List.eq_nil_iff_forall_not_mem.2 fun k hk => ?_
      rw [assigned, l.mem_recent, hnone k] at hk
      cases hk
    · rw [assigned, hnone k]
      simp
  | cons e es ih =>
    obtain ⟨he, hes⟩ := List.pairwise_cons.1 h
    obtain ⟨kept, hkept, hlive⟩ := ih hes
    refine ⟨_, hkept.assign, fun now hnow => ?_⟩
    rw [Nat.add_sub_cancel]
    have hnew : Backward (newest es) := hes.sublist newest_sublist
    have hge : e.2.assigned ≤ now := hnow e List.mem_cons_self
    have hmono : ∀ e' : K × Entry V Time, Live ttl now e' = true → Live ttl e.2.assigned e' = true :=
      fun e' h => decide_eq_true (lt_of_le_of_lt hge (of_decide_eq_true h))
    have htail : ((others ttl e.2.assigned e.1 kept).take n).filter (Live ttl now) =
        (((newest es).filter fun e' => e'.1 ≠ e.1).take n).filter (Live ttl now) := by
      have hsub : ((newest es).filter (Live ttl e.2.assigned)).Sublist (newest es) :=
        List.filter_sublist
      calc ((others ttl e.2.assigned e.1 kept).take n).filter (Live ttl now)
          = (((kept.filter (Live ttl e.2.assigned)).filter fun e' => e'.1 ≠ e.1).take n).filter
              (Live ttl now) := by
            rw [others, List.filter_filter]
            simp only [Bool.and_comm]
        _ = ((((newest es).filter (Live ttl e.2.assigned)).filter fun e' => e'.1 ≠ e.1).filter
              (Live ttl now)).take n := by
            rw [hlive _ he, filter_take hnew.live,
              take_filter_take (nodup_newest.sublist (hsub.map _)),
              filter_take ((hnew.live.sublist hsub).sublist List.filter_sublist)]
        _ = (((newest es).filter fun e' => e'.1 ≠ e.1).filter (Live ttl now)).take n := by
            rw [List.filter_filter, List.filter_filter, List.filter_filter]
            congr 2
            funext e'
            cases hnow' : Live ttl now e' with
            | true => simp [hmono e' hnow']
            | false => simp
        _ = (((newest es).filter fun e' => e'.1 ≠ e.1).take n).filter (Live ttl now) :=
            (filter_take (hnew.live.sublist List.filter_sublist)).symm
    rw [newest, List.take_succ_cons, List.filter_cons, List.filter_cons, htail]

/-- What is found under a key: the value last assigned to it, if that has not expired, and less
    than `maxKeys` other keys have been assigned to since. -/
theorem lookup_assigned_iff [AddRightMono Time] (l : EvictsLru c) (hmax : 0 < maxKeys)
    (h : Backward es) (hnow : ∀ e ∈ es, e.2.assigned ≤ now) :
    M.lookup (assigned M es) now k = some v ↔
      ∃ after t before, es = after ++ (k, ⟨v, t⟩) :: before ∧ k ∉ after.map Prod.fst ∧
        now < t + ttl ∧ (after.map Prod.fst).toFinset.card < maxKeys := by
  obtain ⟨kept, hkept, hlive⟩ := exists_holds_assigned l hmax h
  have hfound : ∀ e, c.entry (assigned M es) k = some e ∧ now < e.assigned + ttl ↔
      (k, e) ∈ (newest es).take maxKeys ∧ now < e.assigned + ttl := by
    intro e
    have hmem : (k, e) ∈ kept.filter (Live ttl now) ↔
        (k, e) ∈ ((newest es).take maxKeys).filter (Live ttl now) := by rw [hlive now hnow]
    rw [hkept.entries]
    rwa [List.mem_filter, List.mem_filter, Live, decide_eq_true_iff] at hmem
  rw [c.lookup_eq]
  simp only [Option.map_eq_some_iff, Option.filter_eq_some_iff, decide_eq_true_iff]
  constructor
  · rintro ⟨e, he, rfl⟩
    obtain ⟨hmem, hlt⟩ := (hfound e).1 he
    obtain ⟨after, before, rfl, hnew, hcard⟩ := mem_take_newest_iff.1 hmem
    exact ⟨after, e.assigned, before, rfl, hnew, hlt, hcard⟩
  · rintro ⟨after, t, before, rfl, hnew, hlt, hcard⟩
    refine ⟨⟨v, t⟩, (hfound _).2 ⟨?_, hlt⟩, rfl⟩
    exact mem_take_newest_iff.2 ⟨after, before, rfl, hnew, hcard⟩

end Mapping
