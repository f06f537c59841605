import Mathlib.Data.List.Sort
import Mathlib.Order.Basic

/-!
# The greatest items of a list

`List.greatest n l` are the `n` greatest items of `l`, the greatest first: what remains of a
collection that is only ever cut down to its `n` greatest items. It does not matter when
the cut is made (`greatest_greatest_append`), nor which of two cuts is made first, this one or
one at a bound from below (`filter_greatest`).
-/

namespace List

variable {α : Type*} [LinearOrder α]

/-- The items of a list, the greatest first. -/
def descending (l : List α) : List α := l.mergeSort fun a b => decide (b ≤ a)

/-- The `n` greatest items of a list, the greatest first. -/
def greatest (n : ℕ) (l : List α) : List α := l.descending.take n

variable {l l' : List α} {n : ℕ} {x : α}

theorem descending_perm (l : List α) : l.descending.Perm l := mergeSort_perm _ _

theorem pairwise_descending (l : List α) : l.descending.Pairwise fun a b => b ≤ a := by
  have h : l.descending.Pairwise fun a b => decide (b ≤ a) = true :=
    pairwise_mergeSort (fun a b c => by simpa using fun h h' => le_trans h' h)
      (fun a b => by simpa using le_total b a) l
  exact h.imp of_decide_eq_true

/-- Only one list has these items in this order. -/
theorem eq_descending (hp : l'.Perm l) (hs : l'.Pairwise fun a b => b ≤ a) :
    l' = l.descending :=
  (hp.trans (descending_perm l).symm).eq_of_pairwise (fun _ _ _ _ h h' => le_antisymm h' h) hs
    (pairwise_descending l)

theorem Perm.descending_eq (hp : l.Perm l') : l.descending = l'.descending :=
  eq_descending ((descending_perm l).trans hp) (pairwise_descending l)

theorem Perm.greatest_eq (hp : l.Perm l') (n : ℕ) : l.greatest n = l'.greatest n := by
  rw [greatest, hp.descending_eq, greatest]

theorem greatest_sublist (n : ℕ) (l : List α) : (l.greatest n).Sublist l.descending :=
  take_sublist n _

/-- They are all the items, if these are no more. -/
theorem greatest_perm (h : l.length ≤ n) : (l.greatest n).Perm l := by
  rw [greatest, take_of_length_le ((descending_perm l).length_eq.trans_le h)]
  exact descending_perm l

/-- The items that meet an upward closed condition come first. -/
theorem descending_eq_append {p : α → Bool} (hp : ∀ a b, a ≤ b → p a → p b) (l : List α) :
    l.descending = (l.filter p).descending ++ (l.filter fun a => !p a).descending := by
  refine (eq_descending ?_ ?_).symm
  · exact ((descending_perm _).append (descending_perm _)).trans (filter_append_perm p l)
  · refine pairwise_append.2 ⟨pairwise_descending _, pairwise_descending _, fun a ha b hb => ?_⟩
    obtain ⟨-, ha⟩ := mem_filter.1 ((descending_perm _).mem_iff.1 ha)
    obtain ⟨-, hb⟩ := mem_filter.1 ((descending_perm _).mem_iff.1 hb)
    refine le_of_lt (lt_of_not_ge fun hab => ?_)
    rw [hp a b hab ha] at hb
    exact absurd hb Bool.false_ne_true

/-- The greatest items of a list in order are its last ones. -/
theorem greatest_eq_reverse_drop (h : l.Pairwise (· ≤ ·)) (n : ℕ) :
    l.greatest n = (l.drop (l.length - n)).reverse := by
  have hdesc : l.reverse = l.descending := eq_descending (reverse_perm l) (pairwise_reverse.2 h)
  rw [greatest, ← hdesc, take_reverse]

/-- A cut at a bound from below commutes with the cut to the greatest. -/
theorem filter_greatest {p : α → Bool} (hp : ∀ a b, a ≤ b → p a → p b) (n : ℕ) (l : List α) :
    (l.greatest n).filter p = (l.filter p).greatest n := by
  have h₁ : ∀ a ∈ (l.filter p).descending.take n, p a := fun a ha =>
    (mem_filter.1 ((descending_perm _).mem_iff.1 (mem_of_mem_take ha))).2
  have h₂ : ∀ m, ∀ a ∈ (l.filter fun a => !p a).descending.take m, ¬ p a := fun m a ha => by
    have := (mem_filter.1 ((descending_perm _).mem_iff.1 (mem_of_mem_take ha))).2
    simpa using this
  rw [greatest, descending_eq_append hp, take_append, filter_append, filter_eq_self.2 h₁,
    filter_eq_nil_iff.2 (h₂ _), append_nil, greatest]

/-- One more item falls out where there are `n` that are not smaller. -/
theorem greatest_cons (h : n ≤ l.countP fun a => x ≤ a) : (x :: l).greatest n = l.greatest n := by
  have hp : ∀ a b : α, a ≤ b → decide (x ≤ a) = true → decide (x ≤ b) = true := fun a b hab ha =>
    decide_eq_true ((of_decide_eq_true ha).trans hab)
  have hlen : n ≤ (l.filter fun a => x ≤ a).descending.length := by
    rwa [(descending_perm _).length_eq, ← countP_eq_length_filter]
  -- The new item goes after those.
  have hx : (x :: l).descending = (l.filter fun a => x ≤ a).descending ++
      x :: (l.filter fun a => !decide (x ≤ a)).descending := by
    refine (eq_descending ?_ ?_).symm
    · refine perm_middle.trans (Perm.cons x ?_)
      rw [← descending_eq_append hp]
      exact descending_perm l
    · have hl := pairwise_descending l
      rw [descending_eq_append hp, pairwise_append] at hl
      refine pairwise_append.2 ⟨hl.1, pairwise_cons.2 ⟨fun b hb => ?_, hl.2.1⟩, fun a ha b hb => ?_⟩
      · have hb := (mem_filter.1 ((descending_perm _).mem_iff.1 hb)).2
        exact le_of_lt (lt_of_not_ge (by simpa using hb))
      · rcases mem_cons.1 hb with rfl | hb
        · exact of_decide_eq_true (mem_filter.1 ((descending_perm _).mem_iff.1 ha)).2
        · exact hl.2.2 a ha b hb
  rw [greatest, greatest, hx, descending_eq_append hp l, take_append_of_le_length hlen,
    take_append_of_le_length hlen]

/-- More items fall out where there are `n` that are not smaller than any of them. -/
theorem greatest_append (h : ∀ x ∈ l', n ≤ l.countP fun a => x ≤ a) :
    (l' ++ l).greatest n = l.greatest n := by
  induction l' with
  | nil => rfl
  | cons x l' ih =>
    rw [cons_append, greatest_cons, ih fun y hy => h y (mem_cons_of_mem x hy)]
    rw [countP_append]
    exact (h x mem_cons_self).trans (Nat.le_add_left _ _)

/-- Where an item is left out, `n` others are not smaller. -/
theorem greatest_of_mem_drop (hx : x ∈ l.descending.drop n) :
    (l.greatest n).length = n ∧ ∀ a ∈ l.greatest n, x ≤ a := by
  have hl := pairwise_descending l
  rw [← take_append_drop n l.descending, pairwise_append] at hl
  have hpos := length_pos_of_mem hx
  rw [length_drop] at hpos
  exact ⟨length_take_of_le (by omega), fun a ha => hl.2.2 a ha x hx⟩

/-- A collection may be cut to its greatest before more is added to it. -/
theorem greatest_greatest_append (n : ℕ) (l l' : List α) :
    (l.greatest n ++ l').greatest n = (l ++ l').greatest n := by
  have hsplit : (l ++ l').Perm (l.descending.drop n ++ (l.greatest n ++ l')) := by
    rw [← append_assoc]
    refine Perm.append_right l' (((descending_perm l).symm).trans ?_)
    rw [greatest]
    nth_rewrite 1 [← take_append_drop n l.descending]
    exact perm_append_comm
  rw [hsplit.greatest_eq n]
  -- Each item cut off has the `n` greatest above it.
  refine (greatest_append fun x hx => ?_).symm
  obtain ⟨hn, hle⟩ := greatest_of_mem_drop hx
  rw [countP_append, countP_eq_length.2 fun a ha => decide_eq_true (hle a ha), hn]
  exact Nat.le_add_right n _

/-- An item with fewer than `n` greater ones is among the greatest. -/
theorem mem_greatest (hx : x ∈ l) (h : (l.countP fun a => x < a) < n) : x ∈ l.greatest n := by
  by_contra hng
  -- Else the `n` items taken would all be greater.
  have hdrop : x ∈ l.descending.drop n := by
    have hx := (descending_perm l).mem_iff.2 hx
    rw [← take_append_drop n l.descending, mem_append] at hx
    exact hx.resolve_left hng
  obtain ⟨hn, hle⟩ := greatest_of_mem_drop hdrop
  have hgt : ∀ a ∈ l.greatest n, decide (x < a) = true := fun a ha =>
    decide_eq_true (lt_of_le_of_ne (hle a ha) fun hxa => hng (hxa ▸ ha))
  have := (greatest_sublist n l).countP_le (p := fun a => decide (x < a))
  rw [countP_eq_length.2 hgt, hn, (descending_perm l).countP_eq] at this
  omega

end List
