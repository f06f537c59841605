import Mathlib.Data.Nat.BitIndices

/-!
# Bit masks

A natural number as a set of bits, with `Nat.bitIndices`: the number with given bits
(`List.toMask`) is determined by them, and the submasks of a number are told by the
sublists of its bits (`Nat.and_eq_left_iff`).
-/

/-- The number with these bits set. -/
def List.toMask (l : List ℕ) : ℕ := l.foldl (fun keep i => keep ||| 1 <<< i) 0

namespace Nat

variable {l : List ℕ} {n m i : ℕ}

theorem testBit_foldl_or : (l.foldl (fun keep i => keep ||| 1 <<< i) n).testBit i =
    (n.testBit i || decide (i ∈ l)) := by
  induction l generalizing n with
  | nil => simp
  | cons j l ih =>
    rw [List.foldl_cons, ih, testBit_or, one_shiftLeft, testBit_two_pow, Bool.or_assoc]
    simp [eq_comm (a := i)]

/-- The bits of the number are those of the list. -/
theorem testBit_toMask : l.toMask.testBit i = true ↔ i ∈ l := by
  rw [List.toMask, testBit_foldl_or, zero_testBit, Bool.false_or, decide_eq_true_eq]

/-- An ascending list is that of the bits it sets. -/
theorem bitIndices_toMask (h : l.Pairwise (· < ·)) : l.toMask.bitIndices = l :=
  bitIndices_sorted.pairwise.eq_of_mem_iff h fun _ => mem_bitIndices.trans testBit_toMask

theorem toMask_bitIndices : n.bitIndices.toMask = n := by
  refine eq_of_testBit_eq fun i => ?_
  rw [Bool.eq_iff_iff, testBit_toMask, mem_bitIndices]

/-- A submask has fewer bits. -/
theorem and_eq_left_iff : n &&& m = n ↔ n.bitIndices.Sublist m.bitIndices := by
  have hsubset : n &&& m = n ↔ n.bitIndices ⊆ m.bitIndices := by
    refine ⟨fun h i hi => ?_, fun h => eq_of_testBit_eq fun i => ?_⟩
    · rw [mem_bitIndices, ← h, testBit_and, Bool.and_eq_true] at hi
      exact mem_bitIndices.2 hi.2
    · rw [testBit_and]
      cases hi : n.testBit i with
      | false => rfl
      | true => exact mem_bitIndices.1 (h (mem_bitIndices.2 hi))
  rw [hsubset]
  refine ⟨fun h => ?_, List.Sublist.subset⟩
  exact List.sublist_of_subperm_of_pairwise (List.subperm_of_subset bitIndices_nodup h)
    bitIndices_sorted.pairwise bitIndices_sorted.pairwise

end Nat
