import Mathlib.Data.List.TakeWhile

/-!
# The part of a list that a loop runs through

A loop on a list that is left at the first element meeting a condition runs
through the elements up to that one, included (`List.upTo`). A nested loop runs
through the parts of its lists in turn.

* `List.exists_mem_upTo_iff`: whatever holds of the elements where the loop is
  left is met by the loop if it is met in the list.
* `List.upTo_eq_takeWhile`: the loop is left, or the list is run through.
-/

namespace List

variable {α : Type*} (p : α → Bool)

/-- The elements up to the first one that meets the condition, included. -/
def upTo : List α → List α
  | [] => []
  | a :: l => if p a then [a] else a :: upTo l

variable {p} {q : α → Prop} {a : α} {l : List α}

@[simp] theorem upTo_nil : upTo p [] = [] := rfl

theorem upTo_cons_of_pos (h : p a = true) : upTo p (a :: l) = [a] := if_pos h

theorem upTo_cons_of_neg (h : p a = false) : upTo p (a :: l) = a :: upTo p l :=
  if_neg (by simp [h])

theorem upTo_subset : upTo p l ⊆ l := by
  induction l with
  | nil => exact Subset.refl _
  | cons a l ih =>
    cases h : p a with
    | true =>
      rw [upTo_cons_of_pos h]
      exact cons_subset.2 ⟨mem_cons_self, nil_subset _⟩
    | false =>
      rw [upTo_cons_of_neg h]
      exact cons_subset_cons _ ih

/-- The loop meets what holds where it is left, if the list has it. -/
theorem exists_mem_upTo_iff (h : ∀ a ∈ l, p a = true → q a) :
    (∃ a ∈ upTo p l, q a) ↔ ∃ a ∈ l, q a := by
  induction l with
  | nil => exact Iff.rfl
  | cons a l ih =>
    cases hp : p a with
    | true =>
      rw [upTo_cons_of_pos hp]
      have hq := h a mem_cons_self hp
      exact iff_of_true ⟨a, mem_singleton_self a, hq⟩ ⟨a, mem_cons_self, hq⟩
    | false =>
      rw [upTo_cons_of_neg hp]
      simp only [mem_cons, exists_eq_or_imp]
      rw [ih fun b hb => h b (mem_cons_of_mem a hb)]

/-- The loop runs through the elements before the one where it is left, and through
    that one, if there is one. -/
theorem upTo_eq_takeWhile : upTo p l = l.takeWhile (! p ·) ++ (l.find? p).toList := by
  induction l with
  | nil => rfl
  | cons a l ih =>
    cases h : p a with
    | true => simp [upTo_cons_of_pos h, h]
    | false => simp [upTo_cons_of_neg h, h, ih]

/-- An element that the loop meets and that meets the condition is where it is left. -/
theorem find?_eq_some_of_mem_upTo (ha : a ∈ upTo p l) (hp : p a = true) :
    l.find? p = some a := by
  rw [upTo_eq_takeWhile] at ha
  rcases mem_append.1 ha with ha | ha
  · have := mem_takeWhile_imp ha
    simp [hp] at this
  · exact Option.mem_toList.1 ha

end List
