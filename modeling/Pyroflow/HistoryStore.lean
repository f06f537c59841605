import Mathlib.Algebra.Order.Monoid.Unbundled.Basic
import Mathlib.Data.Prod.Lex
import Pyroflow.Lib.Greatest
import Pyroflow.Lib.Heapq
import Pyroflow.Lib.Mapping

/-!
# The in-memory history store

`UpdateRecord` of `models.py` and `MemoryUpdateHistoryStore`. A store keeps under each key
a heap of records, the oldest at the root. It drops the records that have expired when
the key is next used (`cleanUp`), and after an update also the oldest ones beyond
`maxHistoryLen` (`trim`). Both stop at the first record to keep, which is enough, as the
heap is ordered by age (`cleanUp_perm`, `trim_perm`).

The mapping from keys to heaps is a parameter: the source uses a `TTLCache`.
-/

namespace Pyroflow

variable {K Time : Type}

/-! ### Records -/

/-- An `UpdateRecord`: when it was created, and its place in the order of creation
    (`_SEQ_IDS`). -/
@[ext]
structure UpdateRecord (Time : Type) where
  createdAt : Time
  seq : ℕ
  deriving DecidableEq, Repr

namespace UpdateRecord

variable [LinearOrder Time]

/-- The order of `__lt__` and `__gt__`: by creation time, then by creation order. -/
instance : LinearOrder (UpdateRecord Time) :=
  LinearOrder.lift' (fun r => toLex (r.createdAt, r.seq)) fun r r' h => by
    obtain ⟨h₁, h₂⟩ := Prod.ext_iff.1 (toLex.injective h)
    exact UpdateRecord.ext h₁ h₂

variable {r r' : UpdateRecord Time}

/-- `__lt__` compares the pairs. -/
theorem lt_iff : r < r' ↔
    r.createdAt < r'.createdAt ∨ r.createdAt = r'.createdAt ∧ r.seq < r'.seq :=
  Prod.Lex.toLex_lt_toLex

theorem le_iff : r ≤ r' ↔
    r.createdAt < r'.createdAt ∨ r.createdAt = r'.createdAt ∧ r.seq ≤ r'.seq :=
  Prod.Lex.toLex_le_toLex

/-- A record is not older than those before it. -/
theorem createdAt_le (h : r ≤ r') : r.createdAt ≤ r'.createdAt := by
  rcases le_iff.1 h with h | h
  · exact h.le
  · exact h.1.le

end UpdateRecord

/-- `sorted`: the records, the oldest first. -/
def sortedRecords [LinearOrder Time] (l : List (UpdateRecord Time)) : List (UpdateRecord Time) :=
  l.mergeSort fun r r' => decide (r ≤ r')

/-- Only the records count, not the order they are in. -/
theorem sortedRecords_congr [LinearOrder Time] {l l' : List (UpdateRecord Time)}
    (h : l.Perm l') : sortedRecords l = sortedRecords l' := by
  have hs (l : List (UpdateRecord Time)) : (sortedRecords l).Pairwise (· ≤ ·) := by
    have hs : (sortedRecords l).Pairwise fun r r' => decide (r ≤ r') = true :=
      List.pairwise_mergeSort (fun a b c => by simpa using le_trans)
        (fun a b => by simpa using le_total a b) l
    exact hs.imp of_decide_eq_true
  have hp := (List.mergeSort_perm l fun r r' => decide (r ≤ r')).trans
    (h.trans (List.mergeSort_perm l' fun r r' => decide (r ≤ r')).symm)
  exact hp.eq_of_pairwise (fun _ _ _ _ => le_antisymm) (hs l) (hs l')

theorem isEmpty_sortedRecords [LinearOrder Time] (l : List (UpdateRecord Time)) :
    (sortedRecords l).isEmpty = l.isEmpty := by
  rw [Bool.eq_iff_iff, List.isEmpty_iff_length_eq_zero, List.isEmpty_iff_length_eq_zero,
    sortedRecords, List.length_mergeSort]

/-! ### The store -/

/-- The histories of a store: a heap of records for each key. -/
abbrev Histories (K Time : Type) : Type 1 := Mapping K (Array (UpdateRecord Time)) Time

/-- `MemoryUpdateHistoryStore`. -/
structure MemoryUpdateHistoryStore (M : Histories K Time) where
  ttl : Time
  maxHistoryLen : ℕ
  histories : M.Dict

namespace MemoryUpdateHistoryStore

variable {M : Histories K Time} [LinearOrder Time] [Add Time] (m : MemoryUpdateHistoryStore M)

/-- `_expires_at`. -/
def expiresAt (r : UpdateRecord Time) : Time := r.createdAt + m.ttl

/-- `_is_expired`. -/
def isExpired (r : UpdateRecord Time) (now : Time) : Bool := decide (m.expiresAt r ≤ now)

/-- `_clean_up`: pops the root while it has expired. -/
def cleanUp (heap : Array (UpdateRecord Time)) (now : Time) : Array (UpdateRecord Time) :=
  if h : 0 < heap.size then
    if m.isExpired heap[0] now then cleanUp (Heapq.heappop heap h).2 now else heap
  else heap
termination_by heap.size
decreasing_by have := Heapq.size_heappop heap h; omega

/-- The loop at the end of `_update`: pops the root while there are too many records. -/
def trim (heap : Array (UpdateRecord Time)) : Array (UpdateRecord Time) :=
  if h : m.maxHistoryLen < heap.size then trim (Heapq.heappop heap (Nat.zero_lt_of_lt h)).2
  else heap
termination_by heap.size
decreasing_by have := Heapq.size_heappop heap (Nat.zero_lt_of_lt h); omega

/-- `_delete`. -/
def delete (now : Time) (key : K) : MemoryUpdateHistoryStore M :=
  { m with histories := (M.pop m.histories now key #[]).2 }

/-- `_update`. The heap found or stored under the key changes in place. -/
def update (now : Time) (key : K) (records : List (UpdateRecord Time)) :
    MemoryUpdateHistoryStore M :=
  let (heap, histories) := M.setdefault m.histories now key #[]
  let heap := records.foldl Heapq.heappush heap
  let heap := m.trim (m.cleanUp heap now)
  let m := { m with histories := M.mutate histories key heap }
  if heap.isEmpty then m.delete now key else m

/-- `_get`: the records, the oldest first. The heap changes in place, if one was found. -/
def get (now : Time) (key : K) : List (UpdateRecord Time) × MemoryUpdateHistoryStore M :=
  let found := (M.lookup m.histories now key).isSome
  let (heap, histories) := M.get m.histories now key #[]
  let heap := m.cleanUp heap now
  let records := sortedRecords heap.toList
  let m := { m with histories := if found then M.mutate histories key heap else histories }
  if records.isEmpty then (records, m.delete now key) else (records, m)

/-- `_pop`: the records, the oldest first. -/
def pop (now : Time) (key : K) : List (UpdateRecord Time) × MemoryUpdateHistoryStore M :=
  let (heap, histories) := M.pop m.histories now key #[]
  (sortedRecords (m.cleanUp heap now).toList, { m with histories })

/-- The calls of a store. -/
inductive Call (K Time : Type)
  | update (key : K) (records : List (UpdateRecord Time))
  | get (key : K)
  | pop (key : K)
  | delete (key : K)

/-- The key a call is for. -/
def Call.key : Call K Time → K
  | .update key _ | .get key | .pop key | .delete key => key

/-- What a call leaves. -/
def exec (now : Time) : Call K Time → MemoryUpdateHistoryStore M
  | .update key records => m.update now key records
  | .get key => (m.get now key).2
  | .pop key => (m.pop now key).2
  | .delete key => m.delete now key

/-- What calls, each at its time, leave one after the other. -/
def run (calls : List (Time × Call K Time)) : MemoryUpdateHistoryStore M :=
  calls.foldl (fun m c => m.exec c.1 c.2) m

variable (M) in
/-- A new store. -/
def new (ttl : Time) (maxHistoryLen : ℕ) : MemoryUpdateHistoryStore M where
  ttl
  maxHistoryLen
  histories := M.empty

/-- The settings do not change. -/
theorem exec_params (m : MemoryUpdateHistoryStore M) (now : Time) (call : Call K Time) :
    (m.exec now call).ttl = m.ttl ∧ (m.exec now call).maxHistoryLen = m.maxHistoryLen := by
  cases call with
  | update key records =>
    rw [exec, update]
    dsimp only
    split <;> exact ⟨rfl, rfl⟩
  | get key =>
    rw [exec, get]
    dsimp only
    split <;> exact ⟨rfl, rfl⟩
  | pop => exact ⟨rfl, rfl⟩
  | delete => exact ⟨rfl, rfl⟩

theorem run_params (m : MemoryUpdateHistoryStore M) (calls : List (Time × Call K Time)) :
    (m.run calls).ttl = m.ttl ∧ (m.run calls).maxHistoryLen = m.maxHistoryLen := by
  induction calls generalizing m with
  | nil => exact ⟨rfl, rfl⟩
  | cons c calls ih =>
    obtain ⟨h₁, h₂⟩ := ih (m.exec c.1 c.2)
    obtain ⟨h₁', h₂'⟩ := exec_params m c.1 c.2
    exact ⟨h₁.trans h₁', h₂.trans h₂'⟩

/-! ### What is pushed -/

section Pushed

variable [DecidableEq K] (key : K)

/-- What a call does to the records pushed to a key since its last pop or delete. -/
def pushedBy (l : List (UpdateRecord Time)) : Call K Time → List (UpdateRecord Time)
  | .update k records => if k = key then l ++ records else l
  | .get _ => l
  | .pop k | .delete k => if k = key then [] else l

/-- What calls do to the records pushed to a key since its last pop or delete. -/
def pushedFrom (l : List (UpdateRecord Time)) (calls : List (Time × Call K Time)) :
    List (UpdateRecord Time) :=
  calls.foldl (fun l c => pushedBy key l c.2) l

/-- The records pushed to a key since its last pop or delete. -/
def pushed (calls : List (Time × Call K Time)) : List (UpdateRecord Time) :=
  pushedFrom key [] calls

end Pushed

/-! ### What the heaps hold -/

variable {m} {heap : Array (UpdateRecord Time)} {r r' : UpdateRecord Time} {now t : Time}

theorem cleanUp_empty : m.cleanUp #[] now = #[] := by
  rw [cleanUp, dif_neg (by exact lt_irrefl 0)]

theorem isExpired_iff : m.isExpired r now = true ↔ m.expiresAt r ≤ now := decide_eq_true_iff

omit [Add Time] in
/-- A trimmed heap holds its newest records. -/
theorem trim_perm (h : Heapq.IsHeap heap) :
    (m.trim heap).toList.Perm (heap.toList.greatest m.maxHistoryLen) := by
  -- By induction along the loop: the root is the oldest record, and not among the newest.
  fun_induction trim m heap with
  | case1 heap hlt ih =>
    have h0 := Nat.zero_lt_of_lt hlt
    have hp := Heapq.heappop_perm heap h0
    refine (ih (h.heappop h0)).trans ?_
    rw [hp.greatest_eq, List.greatest_cons]
    -- All those left are as new as the root.
    rw [List.countP_eq_length.2 fun r hr => decide_eq_true ?_, Array.length_toList]
    · exact Nat.le_of_lt_succ (hlt.trans_eq (Heapq.size_heappop heap h0).symm)
    · rw [Heapq.heappop_fst]
      exact h.root_le h0 (Array.mem_toList_iff.1 (hp.mem_iff.2 (List.mem_cons_of_mem _ hr)))
  | case2 heap hle => exact (List.greatest_perm (Nat.le_of_not_lt hle)).symm

omit [Add Time] in
theorem isHeap_trim (h : Heapq.IsHeap heap) : Heapq.IsHeap (m.trim heap) := by
  fun_induction trim m heap with
  | case1 heap hlt ih => exact ih (h.heappop _)
  | case2 => exact h

omit [Add Time] in
theorem size_trim_le (heap : Array (UpdateRecord Time)) : (m.trim heap).size ≤ m.maxHistoryLen := by
  fun_induction trim m heap with
  | case1 heap hlt ih => exact ih
  | case2 heap hle => exact Nat.le_of_not_lt hle

theorem size_cleanUp_le (heap : Array (UpdateRecord Time)) (now : Time) :
    (m.cleanUp heap now).size ≤ heap.size := by
  fun_induction cleanUp m heap now with
  | case1 heap h0 _ ih => exact ih.trans (Nat.le_of_succ_le (Heapq.size_heappop heap h0).le)
  | case2 => exact le_rfl
  | case3 => exact le_rfl

theorem isHeap_cleanUp (h : Heapq.IsHeap heap) (now : Time) :
    Heapq.IsHeap (m.cleanUp heap now) := by
  fun_induction cleanUp m heap now with
  | case1 heap h0 _ ih => exact ih (h.heappop h0)
  | case2 => exact h
  | case3 => exact h

variable [AddRightMono Time]

/-- A record expires no later than those after it. -/
theorem expiresAt_le (h : r ≤ r') : m.expiresAt r ≤ m.expiresAt r' :=
  add_le_add_left (UpdateRecord.createdAt_le h) m.ttl

/-- The records that have not expired are upward closed. -/
theorem lt_expiresAt_of_le (now : Time) (r r' : UpdateRecord Time) (h : r ≤ r')
    (hr : decide (now < m.expiresAt r) = true) : decide (now < m.expiresAt r') = true :=
  decide_eq_true ((of_decide_eq_true hr).trans_le (expiresAt_le h))

/-- A heap cleaned up holds its records that have not expired. -/
theorem cleanUp_perm (h : Heapq.IsHeap heap) (now : Time) :
    (m.cleanUp heap now).toList.Perm (heap.toList.filter fun r => now < m.expiresAt r) := by
  -- The loop stops at a root that has not expired; nothing under it has then.
  fun_induction cleanUp m heap now with
  | case1 heap h0 hexp ih =>
    have hp := Heapq.heappop_perm heap h0
    rw [isExpired_iff, ← Heapq.heappop_fst h0] at hexp
    refine (ih (h.heappop h0)).trans ?_
    have := hp.filter fun r => now < m.expiresAt r
    rw [List.filter_cons_of_neg (by simpa using hexp)] at this
    exact this.symm
  | case2 heap h0 hexp =>
    rw [isExpired_iff, not_le] at hexp
    rw [List.filter_eq_self.2 fun r hr => ?_]
    exact decide_eq_true (hexp.trans_le (expiresAt_le (h.root_le h0 (Array.mem_toList_iff.1 hr))))
  | case3 heap h0 =>
    obtain rfl := Array.eq_empty_of_size_eq_zero (Nat.eq_zero_of_not_pos h0)
    exact .refl _

/-- What an update makes of a heap. -/
theorem updated_perm (h : Heapq.IsHeap heap) (records : List (UpdateRecord Time)) (now : Time) :
    (m.trim (m.cleanUp (records.foldl Heapq.heappush heap) now)).toList.Perm
      (((heap.toList ++ records).filter fun r => now < m.expiresAt r).greatest
        m.maxHistoryLen) := by
  have h := h.foldl_heappush records
  refine (trim_perm (isHeap_cleanUp h now)).trans ?_
  rw [((cleanUp_perm h now).trans ((Heapq.foldl_heappush_perm heap records).filter _)).greatest_eq]

end MemoryUpdateHistoryStore

end Pyroflow
