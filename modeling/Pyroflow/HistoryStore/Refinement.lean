import Pyroflow.HistoryStore

/-!
# The newest unexpired records

What a store answers whose mapping is a dictionary. A store drops records as soon as it
comes across them, when they have expired or there are too many; all the same it answers
as one would that keeps everything pushed to a key, and picks the newest and of these
the unexpired ones when asked (`refines_newest`).

Expired records may be dropped early, as what is newer than an unexpired record is itself
unexpired (`lt_expiresAt_of_le`): the cut to the unexpired records commutes with the cut to the
newest. And these may be cut early, as no later record makes a dropped one come back.
-/

namespace Pyroflow.MemoryUpdateHistoryStore

variable {K Time : Type}

/-! ### The stores with a dictionary -/

/-- The histories of a store that keeps them in a dictionary. -/
abbrev plain (K Time : Type) [DecidableEq K] : Histories K Time :=
  Mapping.plain K (Array (UpdateRecord Time)) Time

variable [DecidableEq K] (m : MemoryUpdateHistoryStore (plain K Time))

/-- The heap under a key; an empty one if there is none. -/
def heapOf (key : K) : Array (UpdateRecord Time) := (m.histories key).getD #[]

/-- The store with another heap under a key; with none if it is empty. -/
def put (key : K) (heap : Array (UpdateRecord Time)) : MemoryUpdateHistoryStore (plain K Time) :=
  { m with histories :=
      Function.update m.histories key (if heap.isEmpty then none else some heap) }

variable {m} {key k : K} {heap : Array (UpdateRecord Time)}

theorem histories_put_self : (m.put key heap).histories key =
    if heap.isEmpty then none else some heap :=
  Function.update_self key _ m.histories

theorem histories_put_of_ne (h : k ≠ key) : (m.put key heap).histories k = m.histories k :=
  Function.update_of_ne h _ m.histories

theorem heapOf_put_self : (m.put key heap).heapOf key = heap := by
  rw [heapOf, histories_put_self]
  split
  case isTrue h => exact (Array.isEmpty_iff.1 h).symm
  case isFalse => rfl

theorem heapOf_put_of_ne (h : k ≠ key) : (m.put key heap).heapOf k = m.heapOf k := by
  rw [heapOf, histories_put_of_ne h, heapOf]

theorem delete_eq_put (now : Time) : m.delete now key = m.put key #[] := by
  rw [delete, Mapping.plain_pop, put, Array.isEmpty_empty, if_pos rfl]

/-- A heap is put in place, and the key deleted if it is empty. -/
theorem put_of_isEmpty (h : heap.isEmpty) (now : Time) :
    ({ m with histories := Function.update m.histories key (some heap) } :
      MemoryUpdateHistoryStore (plain K Time)).delete now key = m.put key heap := by
  rw [delete_eq_put, put, put, if_pos h, Array.isEmpty_empty, if_pos rfl, Function.update_idem]

variable [LinearOrder Time]

variable (m) in
/-- Each list stored is a heap, not empty, and not too long. -/
def WellFormed : Prop := ∀ key heap, m.histories key = some heap →
  heap ≠ #[] ∧ Heapq.IsHeap heap ∧ heap.size ≤ m.maxHistoryLen

theorem WellFormed.heapOf (hm : m.WellFormed) (key : K) :
    Heapq.IsHeap (m.heapOf key) ∧ (m.heapOf key).size ≤ m.maxHistoryLen := by
  rw [MemoryUpdateHistoryStore.heapOf]
  obtain h | ⟨heap, h⟩ := Option.eq_none_or_eq_some (m.histories key)
  · rw [h]
    exact ⟨Heapq.isHeap_empty, Nat.zero_le _⟩
  · rw [h]
    exact (hm key heap h).2

/-- A heap that is not too long may be put under a key. -/
theorem WellFormed.put (hm : m.WellFormed) (hh : Heapq.IsHeap heap)
    (hlen : heap.size ≤ m.maxHistoryLen) : (m.put key heap).WellFormed := by
  intro k heap' hk
  obtain rfl | hne := eq_or_ne k key
  · rw [histories_put_self] at hk
    split at hk
    case isTrue => cases hk
    case isFalse h =>
      cases hk
      exact ⟨fun h' => h (Array.isEmpty_iff.2 h'), hh, hlen⟩
  · rw [histories_put_of_ne hne] at hk
    exact hm k heap' hk

/-! ### What one call leaves -/

variable [Add Time] {now t : Time} {call : Call K Time}

variable (m) in
/-- The heap a call leaves under its key. -/
def left (now : Time) : Call K Time → Array (UpdateRecord Time)
  | .update key records =>
    m.trim (m.cleanUp (records.foldl Heapq.heappush (m.heapOf key)) now)
  | .get key => m.cleanUp (m.heapOf key) now
  | .pop _ | .delete _ => #[]

/-- A call changes what is under its key only. -/
theorem exec_eq_put : m.exec now call = m.put call.key (m.left now call) := by
  cases call with
  | update key records =>
    rw [exec, update, Mapping.plain_setdefault]
    dsimp only [left, heapOf, Call.key]
    rw [Function.update_self, Option.map_some, Function.update_idem]
    split
    case isTrue h => exact put_of_isEmpty h now
    case isFalse h => rw [put, if_neg h]
  | get key =>
    rw [exec, get, Mapping.plain_get]
    dsimp only [left, heapOf, Call.key]
    rw [isEmpty_sortedRecords, Array.isEmpty_toList]
    obtain h | ⟨heap, h⟩ := Option.eq_none_or_eq_some (m.histories key)
    · -- Without an entry, the key is deleted all the same.
      simp only [h, Option.getD_none, cleanUp_empty]
      exact delete_eq_put now
    · simp only [h, Option.getD_some, Option.isSome_some, Option.map_some, if_true]
      split
      case isTrue h' => exact put_of_isEmpty h' now
      case isFalse h' => rw [put, if_neg h']
  | pop key =>
    rw [exec, pop, Mapping.plain_pop]
    dsimp only [left, heapOf, Call.key]
    rw [put, Array.isEmpty_empty, if_pos rfl]
  | delete key => exact delete_eq_put now

/-- The records a look at a key finds. -/
theorem get_fst : (m.get now key).1 = sortedRecords (m.cleanUp (m.heapOf key) now).toList := by
  rw [get, Mapping.plain_get]
  dsimp only
  split <;> rfl

theorem pop_fst : (m.pop now key).1 = sortedRecords (m.cleanUp (m.heapOf key) now).toList := by
  rw [pop, Mapping.plain_pop, heapOf]

theorem WellFormed.left (hm : m.WellFormed) (now : Time) (call : Call K Time) :
    Heapq.IsHeap (m.left now call) ∧ (m.left now call).size ≤ m.maxHistoryLen := by
  cases call with
  | update key records =>
    exact ⟨isHeap_trim (isHeap_cleanUp ((hm.heapOf key).1.foldl_heappush records) now),
      size_trim_le _⟩
  | get key =>
    exact ⟨isHeap_cleanUp (hm.heapOf key).1 now, (size_cleanUp_le _ now).trans (hm.heapOf key).2⟩
  | pop => exact ⟨Heapq.isHeap_empty, Nat.zero_le _⟩
  | delete => exact ⟨Heapq.isHeap_empty, Nat.zero_le _⟩

theorem WellFormed.exec (hm : m.WellFormed) (now : Time) (call : Call K Time) :
    (m.exec now call).WellFormed := by
  rw [exec_eq_put]
  exact hm.put (hm.left now call).1 (hm.left now call).2

theorem WellFormed.run (hm : m.WellFormed) (calls : List (Time × Call K Time)) :
    (m.run calls).WellFormed := by
  induction calls generalizing m with
  | nil => exact hm
  | cons c calls ih => exact ih (hm.exec c.1 c.2)

/-! ### What is answered -/

variable (m) in
/-- The records under the key that have not expired at the time `t` are the newest of those
    in `l`. -/
def Refines (t : Time) (key : K) (l : List (UpdateRecord Time)) : Prop :=
  ((m.heapOf key).toList.filter fun r => t < m.expiresAt r).Perm
    ((l.filter fun r => t < m.expiresAt r).greatest m.maxHistoryLen)

/-- What had expired when it was dropped has expired later. -/
theorem filter_filter_of_le (h : now ≤ t) (l : List (UpdateRecord Time)) :
    ((l.filter fun r => now < m.expiresAt r).filter fun r => t < m.expiresAt r) =
      l.filter fun r => t < m.expiresAt r := by
  rw [List.filter_filter]
  refine List.filter_congr fun r _ => ?_
  rw [Bool.and_eq_left_iff_imp]
  exact fun ht => decide_eq_true (h.trans_lt (of_decide_eq_true ht))

variable [AddRightMono Time]

/-- A call at its key. -/
theorem Refines.left {l : List (UpdateRecord Time)} (hr : m.Refines t call.key l)
    (hm : m.WellFormed) (hnow : now ≤ t) :
    ((m.left now call).toList.filter fun r => t < m.expiresAt r).Perm
      (((pushedBy call.key l call).filter fun r => t < m.expiresAt r).greatest
        m.maxHistoryLen) := by
  cases call with
  | update key records =>
    rw [MemoryUpdateHistoryStore.left, pushedBy, Call.key, if_pos rfl, List.filter_append]
    have hr : m.Refines t key l := hr
    refine ((updated_perm (hm.heapOf key).1 records now).filter _).trans ?_
    -- Of the list, what is unexpired by `now` was cut to the newest, and is cut to what is
    -- unexpired by `t`: the cuts commute, and both may be made on what was pushed.
    rw [List.filter_greatest (lt_expiresAt_of_le t), filter_filter_of_le hnow,
      List.filter_append, (hr.append_right _).greatest_eq, List.greatest_greatest_append]
  | get key =>
    refine ((cleanUp_perm (hm.heapOf key).1 now).filter _).trans ?_
    rw [filter_filter_of_le hnow]
    exact hr
  | pop key | delete key =>
    rw [pushedBy, Call.key, if_pos rfl]
    exact (List.greatest_perm (Nat.zero_le _)).symm

/-- A step: a call keeps to what is pushed by it. -/
theorem Refines.exec {l : List (UpdateRecord Time)} (hr : m.Refines t key l)
    (hm : m.WellFormed) (hnow : now ≤ t) :
    (m.exec now call).Refines t key (pushedBy key l call) := by
  rw [exec_eq_put]
  -- Another key keeps its heap, and gets no records.
  obtain rfl | hkey := eq_or_ne key call.key
  · rw [Refines, heapOf_put_self]
    exact hr.left hm hnow
  · have hl : pushedBy key l call = l := by
      cases call with
      | get => rfl
      | update | pop | delete => exact if_neg hkey.symm
    rw [Refines, heapOf_put_of_ne hkey, hl]
    exact hr

/-- A run: its calls keep to what is pushed by them. -/
theorem Refines.run {l : List (UpdateRecord Time)} (hr : m.Refines t key l) (hm : m.WellFormed)
    {calls : List (Time × Call K Time)} (ht : ∀ c ∈ calls, c.1 ≤ t) :
    (m.run calls).Refines t key (pushedFrom key l calls) := by
  induction calls generalizing m l with
  | nil => exact hr
  | cons c calls ih =>
    exact ih (hr.exec hm (ht c List.mem_cons_self)) (hm.exec c.1 c.2) fun c' hc' =>
      ht c' (List.mem_cons_of_mem c hc')

/-- What is answered from a list with the right records. -/
theorem Refines.answer {l : List (UpdateRecord Time)} (hr : m.Refines t key l)
    (hm : m.WellFormed) :
    sortedRecords (m.cleanUp (m.heapOf key) t).toList =
      sortedRecords ((l.greatest m.maxHistoryLen).filter fun r => t < m.expiresAt r) := by
  refine sortedRecords_congr ((cleanUp_perm (hm.heapOf key).1 t).trans ?_)
  rw [List.filter_greatest (lt_expiresAt_of_le t)]
  exact hr

variable (ttl : Time) (maxHistoryLen : ℕ)

/-- A store answers with the newest records pushed to a key since its last pop or delete, as
    far as they have not expired, the oldest first. After any calls, `get` and `pop` do so at
    every time that is not before these calls; a call for another key leaves what is stored
    under the key; and a list stored is a heap, not empty, and not longer than
    `maxHistoryLen`. -/
theorem refines_newest (calls : List (Time × Call K Time)) (key : K) :
    let m := (new (plain K Time) ttl maxHistoryLen).run calls
    let newest t := sortedRecords
      (((pushed key calls).greatest maxHistoryLen).filter fun r => t < r.createdAt + ttl)
    (∀ t, (∀ c ∈ calls, c.1 ≤ t) → (m.get t key).1 = newest t ∧ (m.pop t key).1 = newest t) ∧
    (∀ now (call : Call K Time), call.key ≠ key →
      (m.exec now call).histories key = m.histories key) ∧
    ∀ heap, m.histories key = some heap →
      heap ≠ #[] ∧ Heapq.IsHeap heap ∧ heap.size ≤ maxHistoryLen := by
  intro m newest
  have hnew : (new (plain K Time) ttl maxHistoryLen).WellFormed := fun _ _ h => by cases h
  have hm : m.WellFormed := hnew.run calls
  have hlen : m.maxHistoryLen = maxHistoryLen := (run_params _ calls).2
  have httl : m.ttl = ttl := (run_params _ calls).1
  refine ⟨fun t ht => ?_, fun now call hkey => ?_, fun heap hheap => ?_⟩
  · -- At first nothing is stored and nothing was pushed.
    have hr : m.Refines t key (pushed key calls) := by
      exact Refines.run (List.greatest_perm (Nat.zero_le _)).symm hnew ht
    have := hr.answer hm
    simp only [expiresAt, hlen, httl] at this
    exact ⟨get_fst.trans this, pop_fst.trans this⟩
  · rw [exec_eq_put, histories_put_of_ne hkey.symm]
  · rw [← hlen]
    exact hm key heap hheap

/-- Three records pushed out of order, of which two are kept and the older one expires. -/
theorem refines_newest_three :
    (((new (plain Unit ℕ) 10 2).run [(5, .update () [⟨5, 0⟩, ⟨1, 1⟩, ⟨3, 2⟩])]).get 14 ()).1 =
      [⟨5, 0⟩] := by
  refine ((refines_newest 10 2 _ ()).1 14 (by decide)).1.trans ?_
  have h : [⟨5, 0⟩, ⟨3, 2⟩, ⟨1, 1⟩] =
      List.descending [(⟨5, 0⟩ : UpdateRecord ℕ), ⟨1, 1⟩, ⟨3, 2⟩] :=
    List.eq_descending (by decide) (by simp [UpdateRecord.le_iff])
  dsimp only [pushed, pushedFrom, List.foldl_cons, List.foldl_nil, pushedBy]
  rw [if_pos rfl, List.nil_append, List.greatest, ← h]
  exact List.mergeSort_singleton _

end Pyroflow.MemoryUpdateHistoryStore
