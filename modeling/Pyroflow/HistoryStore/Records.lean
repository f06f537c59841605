import Mathlib.Logic.Function.Basic
import Pyroflow.HistoryStore
import Pyroflow.Lib.Lts

/-!
# The order of the records

What makes the order of `UpdateRecord` total is not in the records: `_SEQ_IDS` holds the
place of each in the order of creation, under the `id` of the object. Objects come and go
(`RecordMemory.Step`). An object that nothing refers to any more is dropped; then its
finalizer runs, which removes its `id` from `_SEQ_IDS`, and only then is its memory freed,
and its `id` may be that of a new object.

So at every point `_SEQ_IDS` has the numbers of the objects whose finalizer has not run, and
nothing else (`RecordMemory.Valid`): the comparisons find what they look up, and they are the
order of creation time and creation order (`RecordMemory.Valid.lt_eq`), by which the history
store keeps its records.
-/

namespace Pyroflow

variable {Id Time : Type}

/-- An `UpdateRecord` object in memory: its `id`, its `created_at`, and whether it has been
    dropped. -/
structure RecordObject (Id Time : Type) where
  id : Id
  createdAt : Time
  dropped : Bool
  deriving DecidableEq, Repr

/-- What the comparisons read: the next number of `_SEQ`, `_SEQ_IDS`, and the objects in
    memory, by the number that was issued when each was created. -/
structure RecordMemory (Id Time : Type) where
  seq : ℕ
  seqIds : Id → Option ℕ
  records : ℕ → Option (RecordObject Id Time)

namespace RecordMemory

/-! ### The comparisons -/

section Comparisons

variable [LinearOrder Time] (m : RecordMemory Id Time) (r r' : RecordObject Id Time)

/-- `__lt__`; `none` when a lookup raises `KeyError`. -/
def lt : Option Bool :=
  (m.seqIds r.id).bind fun n => (m.seqIds r'.id).map fun n' =>
    decide (toLex (r.createdAt, n) < toLex (r'.createdAt, n'))

/-- `__gt__`; `none` when a lookup raises `KeyError`. -/
def gt : Option Bool :=
  (m.seqIds r.id).bind fun n => (m.seqIds r'.id).map fun n' =>
    decide (toLex (r.createdAt, n) > toLex (r'.createdAt, n'))

end Comparisons

/-! ### Objects coming and going -/

/-- What happens to the objects. -/
inductive Event (Id Time : Type)
  | create (id : Id) (createdAt : Time)
  | drop (n : ℕ)
  | finalize (n : ℕ)

section Operations

variable [DecidableEq Id] (m : RecordMemory Id Time)

/-- `__post_init__`, of a new object. -/
def postInit (id : Id) (createdAt : Time) : RecordMemory Id Time where
  seq := m.seq + 1
  seqIds := Function.update m.seqIds id (some m.seq)
  records := Function.update m.records m.seq (some ⟨id, createdAt, false⟩)

/-- The last reference to the object with the number goes. -/
def drop (n : ℕ) (r : RecordObject Id Time) : RecordMemory Id Time :=
  { m with records := Function.update m.records n (some { r with dropped := true }) }

/-- `_SEQ_IDS.pop(id, None)`, the finalizer of the object with the number; then its memory is
    freed. -/
def finalize (n : ℕ) (r : RecordObject Id Time) : RecordMemory Id Time :=
  { m with
    seqIds := Function.update m.seqIds r.id none
    records := Function.update m.records n none }

end Operations

variable [DecidableEq Id]

/-- The steps. A new object has an `id` that no object in memory has. -/
inductive Step : RecordMemory Id Time → Event Id Time → RecordMemory Id Time → Prop
  | create {m} (id createdAt) : (∀ n r, m.records n = some r → r.id ≠ id) →
      Step m (.create id createdAt) (m.postInit id createdAt)
  | drop {m r} (n) : m.records n = some r → r.dropped = false → Step m (.drop n) (m.drop n r)
  | finalize {m r} (n) : m.records n = some r → r.dropped = true →
      Step m (.finalize n) (m.finalize n r)

/-- No object has been created. -/
def recordLts (Id Time : Type) [DecidableEq Id] : Lts (RecordMemory Id Time) (Event Id Time) where
  init m := m = ⟨0, fun _ => none, fun _ => none⟩
  step := Step

/-- `_SEQ_IDS` has the numbers of the objects in memory, under their `id`s. -/
structure Valid (m : RecordMemory Id Time) : Prop where
  /-- The numbers issued are below the next. -/
  lt_seq : ∀ {n r}, m.records n = some r → n < m.seq
  seqIds_eq_some_iff : ∀ {id n}, m.seqIds id = some n ↔ ∃ r, m.records n = some r ∧ r.id = id

variable {m m' : RecordMemory Id Time} {e : Event Id Time} {n n' : ℕ}
  {r r' : RecordObject Id Time}

omit [DecidableEq Id] in
theorem Valid.seqIds_eq (h : m.Valid) (hr : m.records n = some r) : m.seqIds r.id = some n :=
  h.seqIds_eq_some_iff.2 ⟨r, hr, rfl⟩

omit [DecidableEq Id] in
/-- Objects in memory have different `id`s. -/
theorem Valid.eq_of_id_eq (h : m.Valid) (hr : m.records n = some r) (hr' : m.records n' = some r')
    (hid : r.id = r'.id) : n = n' := by
  have := h.seqIds_eq hr
  rw [hid, h.seqIds_eq hr'] at this
  exact (Option.some.inj this).symm

/-- A new object has the next number, and an `id` that is not in `_SEQ_IDS`. -/
theorem Valid.postInit (h : m.Valid) {id : Id} {createdAt : Time}
    (hfresh : ∀ n r, m.records n = some r → r.id ≠ id) : (m.postInit id createdAt).Valid := by
  have hnew : ∀ r, m.records m.seq ≠ some r := fun r hr => (h.lt_seq hr).false
  refine ⟨fun {n r} hr => ?_, fun {id' n} => ?_⟩
  · dsimp only [RecordMemory.postInit] at hr ⊢
    by_cases hn : n = m.seq
    · exact hn ▸ Nat.lt_succ_self _
    · rw [Function.update_of_ne hn] at hr
      exact Nat.lt_succ_of_lt (h.lt_seq hr)
  · dsimp only [RecordMemory.postInit]
    by_cases hid : id' = id
    · subst hid
      rw [Function.update_self, Option.some_inj]
      constructor
      · intro hn
        subst hn
        exact ⟨_, Function.update_self _ _ _, rfl⟩
      · intro ⟨r, hr, hid⟩
        by_contra hn
        rw [Function.update_of_ne (Ne.symm hn)] at hr
        exact hfresh n r hr hid
    · rw [Function.update_of_ne hid, h.seqIds_eq_some_iff]
      by_cases hn : n = m.seq
      · subst hn
        rw [Function.update_self]
        refine iff_of_false (fun ⟨r, hr, _⟩ => hnew r hr) fun ⟨r, hr, hid'⟩ => ?_
        rw [← Option.some.inj hr] at hid'
        exact hid hid'.symm
      · rw [Function.update_of_ne hn]

omit [DecidableEq Id] in
/-- A change to an object in memory gives no object a new number. -/
theorem Valid.lt_seq_of_update (h : m.Valid) (hr : m.records n = some r)
    {o : Option (RecordObject Id Time)} (hr' : Function.update m.records n o n' = some r') :
    n' < m.seq := by
  by_cases hn : n' = n
  · exact hn ▸ h.lt_seq hr
  · rw [Function.update_of_ne hn] at hr'
    exact h.lt_seq hr'

omit [DecidableEq Id] in
/-- A dropped object is still in memory. -/
theorem Valid.drop (h : m.Valid) (hr : m.records n = some r) : (m.drop n r).Valid := by
  refine ⟨h.lt_seq_of_update hr, fun {id k} => ?_⟩
  dsimp only [RecordMemory.drop]
  rw [h.seqIds_eq_some_iff]
  by_cases hk : k = n
  · subst hk
    rw [Function.update_self, hr]
    constructor
    · intro ⟨r', hr', hid⟩
      exact ⟨_, rfl, Option.some.inj hr' ▸ hid⟩
    · intro ⟨r', hr', hid⟩
      exact ⟨r, rfl, by rw [← hid, ← Option.some.inj hr']⟩
  · rw [Function.update_of_ne hk]

/-- A finalizer removes the number of its object, as no other has that `id`. -/
theorem Valid.finalize (h : m.Valid) (hr : m.records n = some r) : (m.finalize n r).Valid := by
  refine ⟨h.lt_seq_of_update hr, fun {id k} => ?_⟩
  dsimp only [RecordMemory.finalize]
  by_cases hk : k = n
  · subst hk
    rw [Function.update_self]
    refine iff_of_false (fun hid => ?_) (by simp)
    by_cases heq : id = r.id
    · rw [heq, Function.update_self] at hid
      cases hid
    · rw [Function.update_of_ne heq, h.seqIds_eq_some_iff, hr] at hid
      obtain ⟨r', hr', hid⟩ := hid
      exact heq (Option.some.inj hr' ▸ hid.symm)
  · rw [Function.update_of_ne hk]
    by_cases heq : id = r.id
    · subst heq
      rw [Function.update_self]
      exact iff_of_false (by simp) fun ⟨r', hr', hid⟩ => hk (h.eq_of_id_eq hr' hr hid)
    · rw [Function.update_of_ne heq, h.seqIds_eq_some_iff]

/-- At every point `_SEQ_IDS` has the numbers of the objects in memory. -/
theorem valid_of_reachable (h : (recordLts Id Time).Reachable m) : m.Valid := by
  refine h.invariant (fun m hinit => ?_) fun m e m' hm _ hstep => ?_
  · subst hinit
    exact ⟨fun hr => absurd hr (by simp), by simp⟩
  · cases hstep with
    | create _ _ hfresh => exact hm.postInit hfresh
    | drop _ hr _ => exact hm.drop hr
    | finalize _ hr _ => exact hm.finalize hr

/-! ### The order -/

section Order

variable [LinearOrder Time]

omit [DecidableEq Id] in
/-- `__lt__` is the order of the records. -/
theorem Valid.lt_eq (h : m.Valid) (hr : m.records n = some r) (hr' : m.records n' = some r') :
    m.lt r r' = some (decide ((⟨r.createdAt, n⟩ : UpdateRecord Time) < ⟨r'.createdAt, n'⟩)) := by
  rw [lt, h.seqIds_eq hr, h.seqIds_eq hr']
  rfl

omit [DecidableEq Id] in
/-- `__gt__` is the same order, the other way round. -/
theorem gt_eq_lt : m.gt r r' = m.lt r' r := by
  rw [gt, lt]
  cases m.seqIds r.id <;> cases m.seqIds r'.id <;> rfl

/-- At every point of every run `_SEQ_IDS` has, under the `id` of each object in memory, the
    number issued when it was created, and no other `id`s. So no comparison of two of them
    fails a lookup; of two different ones exactly one is less than the other, which is then
    greater than it; the comparisons are transitive; and objects created at the same time are
    in the order of their creation. -/
theorem records_ordered (h : (recordLts Id Time).Reachable m) :
    (∀ id n, m.seqIds id = some n ↔ ∃ r, m.records n = some r ∧ r.id = id) ∧
    (∀ n n' r r', m.records n = some r → m.records n' = some r' →
      (m.lt r r').isSome ∧ m.gt r r' = m.lt r' r ∧
      (n ≠ n' → Xor (m.lt r r' = some true) (m.lt r' r = some true)) ∧
      (r.createdAt = r'.createdAt → m.lt r r' = some (decide (n < n')))) ∧
    ∀ n n' n'' r r' r'', m.records n = some r → m.records n' = some r' →
      m.records n'' = some r'' → m.lt r r' = some true → m.lt r' r'' = some true →
      m.lt r r'' = some true := by
  have hv := valid_of_reachable h
  refine ⟨fun _ _ => hv.seqIds_eq_some_iff, fun n n' r r' hr hr' => ⟨?_, gt_eq_lt, ?_, ?_⟩, ?_⟩
  · rw [hv.lt_eq hr hr', Option.isSome_some]
  · intro hne
    rw [hv.lt_eq hr hr', hv.lt_eq hr' hr, Option.some_inj, Option.some_inj, decide_eq_true_iff,
      decide_eq_true_iff]
    -- Different objects have different numbers.
    have hne : (⟨r.createdAt, n⟩ : UpdateRecord Time) ≠ ⟨r'.createdAt, n'⟩ := fun heq =>
      hne (congrArg UpdateRecord.seq heq)
    rcases lt_or_gt_of_ne hne with hlt | hlt
    · exact .inl ⟨hlt, hlt.asymm⟩
    · exact .inr ⟨hlt, hlt.asymm⟩
  · intro heq
    rw [hv.lt_eq hr hr', heq]
    simp only [UpdateRecord.lt_iff, lt_self_iff_false, true_and, false_or]
  · intro n n' n'' r r' r'' hr hr' hr'' hlt hlt'
    rw [hv.lt_eq hr hr', Option.some_inj, decide_eq_true_iff] at hlt
    rw [hv.lt_eq hr' hr'', Option.some_inj, decide_eq_true_iff] at hlt'
    rw [hv.lt_eq hr hr'', decide_eq_true (hlt.trans hlt')]

/-- An object with the `id` of one that is gone is before one created after it. -/
theorem records_ordered_reused :
    ((((((⟨0, fun _ => none, fun _ => none⟩ : RecordMemory ℕ ℕ).postInit 7 3).drop 0
      ⟨7, 3, false⟩).finalize 0 ⟨7, 3, true⟩).postInit 7 5).postInit 8 5).lt
      ⟨7, 5, false⟩ ⟨8, 5, false⟩ = some true := by
  have h₀ : (recordLts ℕ ℕ).Reachable ⟨0, fun _ => none, fun _ => none⟩ := .init rfl
  have h₁ := h₀.tail trivial (.create 7 3 (by simp))
  have h₂ := h₁.tail trivial (.drop 0 rfl rfl)
  have h₃ := h₂.tail trivial (.finalize 0 rfl rfl)
  have h₄ := h₃.tail trivial (.create 7 5 (by simp [postInit, drop, finalize]))
  have h₅ := h₄.tail trivial (.create 8 5 (by
    intro n r hr
    simp only [postInit, drop, finalize, Function.update_apply] at hr
    grind))
  exact ((records_ordered h₅).2.1 1 2 _ _ rfl rfl).2.2.2 rfl

end Order

end RecordMemory

end Pyroflow
