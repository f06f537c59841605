import Mathlib.Data.List.Perm.Basic
import Mathlib.Order.Basic
import Mathlib.Tactic.Ring

/-!
# Binary heaps

Python's `heapq` on an array: `heappush` appends an item and lets it move up past its
parents while it is smaller (`siftdown`); `heappop` takes the root, puts the last item
there, lets it move down to a leaf, always to its smaller child (`siftup`), and then up
again. The item at `i` is the child of the one at `(i - 1) / 2`.

Both keep the heap (`IsHeap.heappush`, `IsHeap.heappop`) and do to the items what they say
(`heappush_perm`, `heappop_perm`), and the root of a heap is its smallest item
(`IsHeap.root_le`). While an item is on its way, the order holds everywhere but around it
(`RisingAt`, `SinkingAt`).
-/

namespace Heapq

variable {α : Type*} [LinearOrder α]

/-! ### The operations -/

/-- `_siftdown(heap, 0, pos)`: the item at `pos` moves up while it is smaller than its
    parent. -/
def siftdown (a : Array α) (pos : ℕ) (h : pos < a.size) : Array α :=
  if 0 < pos then
    if a[pos] < a[(pos - 1) / 2] then
      siftdown (a.swap pos ((pos - 1) / 2)) ((pos - 1) / 2) (by rw [Array.size_swap]; omega)
    else a
  else a
termination_by pos
decreasing_by omega

/-- `_siftup(heap, pos)`: the item at `pos` moves down to a leaf, each time to its smaller
    child, and up again. -/
def siftup (a : Array α) (pos : ℕ) (h : pos < a.size) : Array α :=
  if hr : 2 * pos + 2 < a.size then
    if a[2 * pos + 1] < a[2 * pos + 2] then
      siftup (a.swap pos (2 * pos + 1)) (2 * pos + 1) (by rw [Array.size_swap]; omega)
    else siftup (a.swap pos (2 * pos + 2)) (2 * pos + 2) (by rw [Array.size_swap]; omega)
  else if hl : 2 * pos + 1 < a.size then
    siftup (a.swap pos (2 * pos + 1)) (2 * pos + 1) (by rw [Array.size_swap]; omega)
  else siftdown a pos h
termination_by a.size - pos
decreasing_by all_goals (rw [Array.size_swap]; omega)

/-- `heappush(heap, item)`. -/
def heappush (a : Array α) (x : α) : Array α :=
  siftdown (a.push x) a.size (by rw [Array.size_push]; omega)

/-- `heappop(heap)`: the item popped, and the heap left. On an empty list it raises
    `IndexError`, which the hypothesis excludes. -/
def heappop (a : Array α) (h : 0 < a.size) : α × Array α :=
  if h' : 0 < a.pop.size then
    (a.pop[0], siftup (a.pop.set 0 a[a.size - 1]) 0 (by rw [Array.size_set]; exact h'))
  else (a[a.size - 1], a.pop)

/-! ### The items -/

theorem siftdown_perm (a : Array α) (pos : ℕ) (h : pos < a.size) : (siftdown a pos h).Perm a := by
  fun_induction siftdown a pos h with
  | case1 a pos h hpos hlt ih => exact ih.trans (Array.swap_perm _ _)
  | case2 => exact .refl _
  | case3 => exact .refl _

theorem siftup_perm (a : Array α) (pos : ℕ) (h : pos < a.size) : (siftup a pos h).Perm a := by
  fun_induction siftup a pos h with
  | case1 a pos h hr hlt ih => exact ih.trans (Array.swap_perm _ _)
  | case2 a pos h hr hlt ih => exact ih.trans (Array.swap_perm _ _)
  | case3 a pos h hr hl ih => exact ih.trans (Array.swap_perm _ _)
  | case4 a pos h => exact siftdown_perm a pos h

/-- A push adds its item. -/
theorem heappush_perm (a : Array α) (x : α) : (heappush a x).toList.Perm (x :: a.toList) := by
  refine (siftdown_perm _ _ _).toList.trans ?_
  rw [Array.toList_push]
  exact List.perm_append_singleton x a.toList

/-- Pushes one after the other add their items. -/
theorem foldl_heappush_perm (a : Array α) (l : List α) :
    (l.foldl heappush a).toList.Perm (a.toList ++ l) := by
  induction l generalizing a with
  | nil => rw [List.foldl_nil, List.append_nil]
  | cons x l ih =>
    exact (ih _).trans (((heappush_perm a x).append_right l).trans List.perm_middle.symm)

/-- The heap popped is one item shorter: the last item is put at the root. -/
theorem heappop_push (b : Array α) (x : α) (h : 0 < (b.push x).size) :
    heappop (b.push x) h = if h' : 0 < b.size then
      (b[0], siftup (b.set 0 x) 0 (by rw [Array.size_set]; exact h')) else (x, b) := by
  simp only [heappop, Array.pop_push, Array.size_push, Nat.add_sub_cancel, Array.getElem_push_eq]

/-- A pop takes its item, and leaves the others. -/
theorem heappop_perm (a : Array α) (h : 0 < a.size) :
    a.toList.Perm ((heappop a h).1 :: (heappop a h).2.toList) := by
  obtain ⟨b, x, rfl⟩ := Array.eq_push_of_size_ne_zero (Nat.ne_of_gt h)
  rw [heappop_push, Array.toList_push]
  split
  case isTrue h' =>
    refine List.Perm.trans ?_ ((siftup_perm _ _ _).toList.symm.cons _)
    obtain ⟨_ | ⟨y, l⟩⟩ := b
    · exact absurd h' (lt_irrefl 0)
    · exact (List.perm_append_singleton x (y :: l)).trans (.swap y x l)
  case isFalse => exact List.perm_append_singleton x b.toList

/-- A pop leaves one item less. -/
theorem size_heappop (a : Array α) (h : 0 < a.size) : (heappop a h).2.size + 1 = a.size := by
  have := (heappop_perm a h).length_eq
  rw [List.length_cons, Array.length_toList, Array.length_toList] at this
  exact this.symm

/-! ### The order -/

/-- No item is smaller than its parent. -/
def IsHeap (a : Array α) : Prop :=
  ∀ i (_ : 0 < i) (_ : i < a.size), a[(i - 1) / 2] ≤ a[i]

/-- A heap but for the item at `pos`, which may be smaller than its parent. -/
structure RisingAt (a : Array α) (pos : ℕ) : Prop where
  order : ∀ i (_ : 0 < i) (_ : i < a.size), i ≠ pos → a[(i - 1) / 2] ≤ a[i]
  skip : ∀ i (_ : 0 < i) (_ : i < a.size), 0 < pos → (i - 1) / 2 = pos →
    a[((i - 1) / 2 - 1) / 2] ≤ a[i]

/-- A heap but for the item at `pos`, which may be anything to its parent and its children. -/
structure SinkingAt (a : Array α) (pos : ℕ) : Prop where
  order : ∀ i (_ : 0 < i) (_ : i < a.size), i ≠ pos → (i - 1) / 2 ≠ pos → a[(i - 1) / 2] ≤ a[i]
  skip : ∀ i (_ : 0 < i) (_ : i < a.size), 0 < pos → (i - 1) / 2 = pos →
    a[((i - 1) / 2 - 1) / 2] ≤ a[i]

variable {a : Array α} {pos : ℕ}

/-- The item has arrived. -/
theorem RisingAt.isHeap (ha : RisingAt a pos) (hpos : pos < a.size)
    (h : 0 < pos → a[(pos - 1) / 2] ≤ a[pos]) : IsHeap a := by
  intro i h0 hi
  by_cases hip : i = pos
  · subst hip
    exact h h0
  · exact ha.order i h0 hi hip

/-- The item changes places with its parent. -/
theorem RisingAt.swap (ha : RisingAt a pos) (hpos : pos < a.size) (h0 : 0 < pos)
    (hlt : a[pos] < a[(pos - 1) / 2]) :
    RisingAt (a.swap pos ((pos - 1) / 2)) ((pos - 1) / 2) where
  order i hi0 hi hip := by
    rw [Array.size_swap] at hi
    simp only [Array.getElem_swap]
    obtain rfl | hne := eq_or_ne i pos
    · -- The old parent, now below the item.
      rw [if_neg (by omega), if_pos rfl, if_pos rfl]
      exact hlt.le
    · rw [if_neg hne, if_neg hip]
      split
      case isTrue hp =>
        -- A child of the item is now below the old parent.
        have := ha.skip i hi0 hi h0 hp
        simpa only [hp] using this
      case isFalse hp =>
        have hi := ha.order i hi0 hi hne
        split
        case isTrue hq =>
          -- The other child of the old parent is now below the item.
          simp only [hq] at hi
          exact hlt.le.trans hi
        case isFalse hq => exact hi
  skip i hi0 hi h0' hip := by
    rw [Array.size_swap] at hi
    have hq := ha.order ((pos - 1) / 2) h0' (by omega) (by omega)
    simp only [hip, Array.getElem_swap]
    rw [if_neg (by omega), if_neg (by omega), if_neg (c := i = (pos - 1) / 2) (by omega)]
    split
    case isTrue => exact hq
    case isFalse hne =>
      have hi := ha.order i hi0 hi hne
      simp only [hip] at hi
      exact hq.trans hi

/-- At a leaf, nothing is below the item. -/
theorem SinkingAt.rising (ha : SinkingAt a pos) (hl : ¬ 2 * pos + 1 < a.size) : RisingAt a pos where
  order i h0 hi hip := ha.order i h0 hi hip (by omega)
  skip := ha.skip

/-- The item changes places with a child that is not greater than the other one. -/
theorem SinkingAt.swap {c : ℕ} (ha : SinkingAt a pos) (hpos : pos < a.size) (hc : c < a.size)
    (h0 : 0 < c) (hp : (c - 1) / 2 = pos)
    (hle : ∀ i (_ : 0 < i) (_ : i < a.size), (i - 1) / 2 = pos → a[c] ≤ a[i]) :
    SinkingAt (a.swap pos c) c where
  order i hi0 hi hip hpc := by
    rw [Array.size_swap] at hi
    simp only [Array.getElem_swap]
    obtain rfl | hne := eq_or_ne i pos
    · -- The child that moved up, now below the parent of the item.
      rw [if_neg (by omega), if_neg hpc, if_pos rfl]
      have := ha.skip c h0 hc hi0 hp
      simpa only [hp] using this
    · rw [if_neg hne, if_neg hip, if_neg hpc]
      split
      case isTrue hp => exact hle i hi0 hi hp
      case isFalse hq => exact ha.order i hi0 hi hne hq
  skip i hi0 hi h0' hip := by
    rw [Array.size_swap] at hi
    have := ha.order i hi0 hi (by omega) (by omega)
    simp only [hip] at this
    simp only [hip, hp, Array.getElem_swap]
    rwa [if_pos trivial, if_neg (by omega), if_neg (by omega)]

/-- The item that rises arrives. -/
theorem RisingAt.siftdown (ha : RisingAt a pos) (h : pos < a.size) : IsHeap (siftdown a pos h) := by
  fun_induction Heapq.siftdown a pos h with
  | case1 a pos h hpos hlt ih => exact ih (ha.swap h hpos hlt)
  | case2 a pos h hpos hlt => exact ha.isHeap h fun _ => le_of_not_gt hlt
  | case3 a pos h hpos => exact ha.isHeap h fun h0 => absurd h0 hpos

/-- The item that sinks arrives. -/
theorem SinkingAt.siftup (ha : SinkingAt a pos) (h : pos < a.size) : IsHeap (siftup a pos h) := by
  fun_induction Heapq.siftup a pos h with
  | case1 a pos h hr hlt ih =>
    refine ih (ha.swap h _ (by omega) (by omega) fun i _ hi hp => ?_)
    obtain rfl | rfl : i = 2 * pos + 1 ∨ i = 2 * pos + 2 := by omega
    · exact le_rfl
    · exact hlt.le
  | case2 a pos h hr hlt ih =>
    refine ih (ha.swap h _ (by omega) (by omega) fun i _ hi hp => ?_)
    obtain rfl | rfl : i = 2 * pos + 1 ∨ i = 2 * pos + 2 := by omega
    · exact le_of_not_gt hlt
    · exact le_rfl
  | case3 a pos h hr hl ih =>
    refine ih (ha.swap h _ (by omega) (by omega) fun i _ hi hp => ?_)
    obtain rfl : i = 2 * pos + 1 := by omega
    exact le_rfl
  | case4 a pos h hr hl => exact (ha.rising hl).siftdown h

/-- The empty list is a heap. -/
theorem isHeap_empty : IsHeap (#[] : Array α) := fun i _ hi => absurd hi (Nat.not_lt_zero i)

/-- A push keeps the heap. -/
theorem IsHeap.heappush (ha : IsHeap a) (x : α) : IsHeap (heappush a x) := by
  refine RisingAt.siftdown ⟨fun i h0 hi hip => ?_, fun i h0 hi _ hp => ?_⟩ _
  · rw [Array.size_push] at hi
    rw [Array.getElem_push_lt (by omega), Array.getElem_push_lt (by omega)]
    exact ha i h0 _
  · -- The item pushed has no children.
    rw [Array.size_push] at hi
    omega

/-- A pop keeps the heap. -/
theorem IsHeap.heappop (ha : IsHeap a) (h : 0 < a.size) : IsHeap (heappop a h).2 := by
  obtain ⟨b, x, rfl⟩ := Array.eq_push_of_size_ne_zero (Nat.ne_of_gt h)
  have hb : IsHeap b := fun i h0 hi => by
    have := ha i h0 (by rw [Array.size_push]; omega)
    rwa [Array.getElem_push_lt (by omega), Array.getElem_push_lt (by omega)] at this
  rw [heappop_push]
  split
  case isTrue h' =>
    refine SinkingAt.siftup ⟨fun i h0 hi hip hp => ?_, fun i h0 hi h0' => absurd h0' (lt_irrefl 0)⟩ _
    rw [Array.size_set] at hi
    rw [Array.getElem_set_ne _ _ hp.symm, Array.getElem_set_ne _ _ hip.symm]
    exact hb i h0 hi
  case isFalse => exact hb

/-- No item is smaller than the root. -/
theorem IsHeap.root_le (ha : IsHeap a) (h : 0 < a.size) {x : α} (hx : x ∈ a) : a[0] ≤ x := by
  obtain ⟨i, hi, rfl⟩ := Array.getElem_of_mem hx
  -- By way of the parent, down to the root.
  induction i using Nat.strong_induction_on with
  | h i ih =>
    rcases Nat.eq_zero_or_pos i with rfl | h0
    · exact le_rfl
    · exact (ih ((i - 1) / 2) (by omega) (by omega) (Array.getElem_mem _)).trans (ha i h0 hi)

/-- Pushes one after the other keep the heap. -/
theorem IsHeap.foldl_heappush (ha : IsHeap a) (l : List α) :
    IsHeap (l.foldl Heapq.heappush a) := by
  induction l generalizing a with
  | nil => exact ha
  | cons x l ih => exact ih (ha.heappush x)

/-- A pop takes the root. -/
theorem heappop_fst (h : 0 < a.size) : (heappop a h).1 = a[0] := by
  obtain ⟨b, x, rfl⟩ := Array.eq_push_of_size_ne_zero (Nat.ne_of_gt h)
  rw [heappop_push]
  split
  case isTrue h' => exact (Array.getElem_push_lt h').symm
  case isFalse h' =>
    obtain rfl := Array.eq_empty_of_size_eq_zero (Nat.eq_zero_of_not_pos h')
    rfl

end Heapq
