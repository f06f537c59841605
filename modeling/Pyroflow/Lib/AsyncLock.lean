import Mathlib.Data.List.Nodup

/-!
# Fair locks

`asyncio.Lock`, as the tasks of an event loop see it. A lock is free or taken, and keeps the
tasks that wait for it in the order they came, each with the future it waits on (`AsyncLock`).
It does not know who holds it.

* A task that asks for a free lock gets it at once, unless others are waiting; else it waits
  (`acquire`).
* A release frees the lock and calls the first of the waiting tasks (`release`). The task takes
  the lock when it resumes, which is some time later.
* A task may be cancelled as it waits, also when it has been called (`cancel`). It resumes
  without the lock, and calls the next one if the lock is free (`resume`).

No call is lost: a lock that is free has called the first of the tasks that wait for it
(`WellFormed`). And the lock is given in order: who gets it by waiting was the first to wait
(`resume_cases`), and who gets it at once has overtaken none but cancelled ones
(`acquire_cases`).
-/

/-- The future a task waits on for a lock. -/
inductive LockFuture
  | pending
  /-- It has a result: the task is called. -/
  | called
  /-- It is cancelled, with the task. -/
  | cancelled
  /-- It had its result when the task was cancelled. -/
  | revoked
  deriving DecidableEq, Repr

namespace LockFuture

/-- The cancellation of the task. -/
def cancel : LockFuture → LockFuture
  | .pending => .cancelled
  | .called => .revoked
  | f => f

/-- The future has had a result. -/
def IsCalled (f : LockFuture) : Prop := f = .called ∨ f = .revoked

/-- The task has been cancelled. -/
def IsCancelled (f : LockFuture) : Prop := f = .cancelled ∨ f = .revoked

theorem isCalled_cancel {f : LockFuture} : f.cancel.IsCalled ↔ f.IsCalled := by
  cases f <;> simp [cancel, IsCalled]

theorem cancel_ne_pending {f : LockFuture} : f.cancel ≠ .pending := by
  cases f <;> simp [cancel]

end LockFuture

/-- A lock, with the tasks that wait for it, in the order they came. -/
structure AsyncLock (O : Type*) where
  locked : Bool := false
  waiters : List (O × LockFuture) := []

namespace AsyncLock

variable {O : Type*}

/-- `_wake_up_first`: the first of the waiting tasks is called, unless its future is done. -/
def wakeUpFirst : List (O × LockFuture) → List (O × LockFuture)
  | (o, .pending) :: ws => (o, .called) :: ws
  | ws => ws

/-- `acquire()`, up to its suspension: whether the lock is taken, or else the task waits. -/
def acquire (l : AsyncLock O) (o : O) : Bool × AsyncLock O :=
  if l.locked = false ∧ ∀ w ∈ l.waiters, w.2 = .cancelled then (true, { l with locked := true })
  else (false, { l with waiters := l.waiters ++ [(o, .pending)] })

/-- `release()`, of a lock that is taken; of another one it raises. -/
def release (l : AsyncLock O) : Option (AsyncLock O) :=
  if l.locked then some ⟨false, wakeUpFirst l.waiters⟩ else none

variable [DecidableEq O]

/-- The future a task waits on, if it waits. -/
def future (l : AsyncLock O) (o : O) : Option LockFuture :=
  (l.waiters.find? fun w => w.1 = o).map Prod.snd

/-- A waiting task is cancelled. -/
def cancel (l : AsyncLock O) (o : O) : AsyncLock O :=
  { l with waiters := l.waiters.map fun w => if w.1 = o then (w.1, w.2.cancel) else w }

/-- The waiting tasks but for one. -/
def others (l : AsyncLock O) (o : O) : List (O × LockFuture) := l.waiters.filter fun w => w.1 ≠ o

/-- A waiting task whose future is done resumes in `acquire()`: whether it takes the lock. -/
def resume (l : AsyncLock O) (o : O) : Option (Bool × AsyncLock O) :=
  match l.future o with
  | some .called => some (true, ⟨true, l.others o⟩)
  | some .cancelled | some .revoked =>
    some (false, ⟨l.locked, if l.locked then l.others o else wakeUpFirst (l.others o)⟩)
  | some .pending | none => none

/-! ### Well-formed locks -/

/-- Only the first of the waiting tasks may be called, and it is not while the lock is taken;
    while the lock is free, it is, or has been cancelled. -/
structure WellFormed (l : AsyncLock O) : Prop where
  /-- A task waits once. -/
  nodup : (l.waiters.map Prod.fst).Nodup
  rest : ∀ w ∈ l.waiters.tail, ¬w.2.IsCalled
  locked : l.locked = true → ∀ w ∈ l.waiters, ¬w.2.IsCalled
  free : l.locked = false → ∀ w ∈ l.waiters.head?, w.2 ≠ .pending

variable {l l' : AsyncLock O} {o o' : O} {f : LockFuture} {ws : List (O × LockFuture)}
  {taken : Bool}

omit [DecidableEq O] in
/-- The first of the waiting tasks is the only one a wake-up may change. -/
theorem wakeUpFirst_cases (ws : List (O × LockFuture)) :
    wakeUpFirst ws = ws ∧ (∀ w ∈ ws.head?, w.2 ≠ .pending) ∨
      ∃ o ws', ws = (o, .pending) :: ws' ∧ wakeUpFirst ws = (o, .called) :: ws' := by
  match ws with
  | [] => exact .inl ⟨rfl, nofun⟩
  | (o, .pending) :: ws' => exact .inr ⟨o, ws', rfl, rfl⟩
  | (o, .called) :: _ | (o, .cancelled) :: _ | (o, .revoked) :: _ =>
    exact .inl ⟨rfl, by simp⟩

omit [DecidableEq O] in
@[simp] theorem map_fst_wakeUpFirst : (wakeUpFirst ws).map Prod.fst = ws.map Prod.fst := by
  rcases wakeUpFirst_cases ws with ⟨h, _⟩ | ⟨o, ws', rfl, h⟩
  · rw [h]
  · rw [h]
    rfl

omit [DecidableEq O] in
@[simp] theorem tail_wakeUpFirst : (wakeUpFirst ws).tail = ws.tail := by
  rcases wakeUpFirst_cases ws with ⟨h, _⟩ | ⟨o, ws', rfl, h⟩
  · rw [h]
  · rw [h]
    rfl

omit [DecidableEq O] in
/-- A wake-up calls a task that is not cancelled. -/
theorem mem_of_mem_wakeUpFirst (hf : f.IsCancelled) (h : (o, f) ∈ wakeUpFirst ws) :
    (o, f) ∈ ws := by
  rcases wakeUpFirst_cases ws with ⟨heq, -⟩ | ⟨o', ws', rfl, heq⟩
  · rwa [heq] at h
  · rw [heq] at h
    rcases List.mem_cons.1 h with h | h
    · obtain rfl : f = .called := congrArg Prod.snd h
      simp [LockFuture.IsCancelled] at hf
    · exact List.mem_cons_of_mem _ h

omit [DecidableEq O] in
theorem ne_pending_of_head?_wakeUpFirst : ∀ w ∈ (wakeUpFirst ws).head?, w.2 ≠ .pending := by
  rcases wakeUpFirst_cases ws with ⟨h, hne⟩ | ⟨o, ws', rfl, h⟩
  · rwa [h]
  · rw [h]
    rintro _ ⟨⟩
    exact nofun

theorem mem_others : ∀ {w}, w ∈ l.others o ↔ w ∈ l.waiters ∧ w.1 ≠ o := by
  simp [others]

/-- The future of a task that waits once. -/
theorem future_eq_some_iff (h : (l.waiters.map Prod.fst).Nodup) :
    l.future o = some f ↔ (o, f) ∈ l.waiters := by
  rw [future, Option.map_eq_some_iff]
  constructor
  · rintro ⟨⟨o', f'⟩, hw, rfl⟩
    obtain rfl : o' = o := by simpa using List.find?_some hw
    exact List.mem_of_find?_eq_some hw
  · intro hmem
    obtain ⟨w, hw⟩ := Option.isSome_iff_exists.1
      (List.find?_isSome (p := fun w : O × LockFuture => w.1 = o).2 ⟨_, hmem, by simp⟩)
    have hwo : w.1 = o := by simpa using List.find?_some hw
    have := List.inj_on_of_nodup_map h (List.mem_of_find?_eq_some hw) hmem hwo
    exact ⟨w, hw, by rw [this]⟩

omit [DecidableEq O] in
/-- A task that is called is the first of those that wait, for a free lock. -/
theorem WellFormed.head?_of_isCalled (h : l.WellFormed) (hmem : (o, f) ∈ l.waiters)
    (hf : f.IsCalled) : l.locked = false ∧ l.waiters.head? = some (o, f) := by
  refine ⟨Bool.eq_false_iff.2 fun hl => h.locked hl _ hmem hf, ?_⟩
  have htail : (o, f) ∉ l.waiters.tail := fun ht => h.rest _ ht hf
  cases hw : l.waiters with
  | nil => simp [hw] at hmem
  | cons w ws =>
    rw [hw, List.tail_cons] at htail
    rw [hw] at hmem
    rw [List.head?_cons, (List.mem_cons.1 hmem).resolve_right htail]

omit [DecidableEq O] in
theorem mem_tail_append {w w' : O × LockFuture} (hw : w ∈ (ws ++ [w']).tail) :
    w ∈ ws.tail ++ [w'] := by
  cases ws with
  | nil => exact absurd hw List.not_mem_nil
  | cons => exact hw

omit [DecidableEq O] in
/-- A task takes a free lock that nobody waits for, but for cancelled ones, or waits. -/
theorem acquire_cases (ha : l.acquire o = (taken, l')) :
    taken = true ∧ l.locked = false ∧ (∀ w ∈ l.waiters, w.2 = .cancelled) ∧
        l' = { l with locked := true } ∨
      taken = false ∧ l' = { l with waiters := l.waiters ++ [(o, .pending)] } := by
  rw [acquire] at ha
  split at ha
  case isTrue hfree =>
    obtain ⟨rfl, rfl⟩ := Prod.mk.inj ha
    exact .inl ⟨rfl, hfree.1, hfree.2, rfl⟩
  case isFalse =>
    obtain ⟨rfl, rfl⟩ := Prod.mk.inj ha
    exact .inr ⟨rfl, rfl⟩

omit [DecidableEq O] in
theorem release_eq_some_iff :
    l.release = some l' ↔ l.locked = true ∧ l' = ⟨false, wakeUpFirst l.waiters⟩ := by
  rw [release, Option.ite_none_right_eq_some, Option.some.injEq, eq_comm (b := l')]

@[simp] theorem map_fst_cancel : (l.cancel o).waiters.map Prod.fst = l.waiters.map Prod.fst := by
  rw [cancel, List.map_map]
  refine List.map_congr_left fun w _ => ?_
  rw [Function.comp_apply]
  split <;> rfl

theorem mem_map_fst_others :
    o' ∈ (l.others o).map Prod.fst ↔ o' ≠ o ∧ o' ∈ l.waiters.map Prod.fst := by
  simp only [List.mem_map, mem_others]
  constructor
  · rintro ⟨w, ⟨hw, hne⟩, rfl⟩
    exact ⟨hne, w, hw, rfl⟩
  · rintro ⟨hne, w, hw, rfl⟩
    exact ⟨w, ⟨hw, hne⟩, rfl⟩

/-- The waiting tasks when one leaves, which does not wait any more. -/
theorem mem_others_iff (o' : O) :
    o' ∈ (l.others o).map Prod.fst ↔ if o' = o then False else o' ∈ l.waiters.map Prod.fst := by
  rw [mem_map_fst_others]
  split
  case isTrue ho => exact iff_of_false (fun h => h.1 ho) id
  case isFalse ho => exact and_iff_right ho

theorem map_fst_others_sublist :
    ((l.others o).map Prod.fst).Sublist (l.waiters.map Prod.fst) :=
  List.filter_sublist.map Prod.fst

/-! ### The operations keep locks well-formed -/

omit [DecidableEq O] in
theorem wellFormed_new : ({} : AsyncLock O).WellFormed :=
  ⟨List.nodup_nil, nofun, nofun, nofun⟩

omit [DecidableEq O] in
theorem WellFormed.acquire (h : l.WellFormed) (ho : o ∉ l.waiters.map Prod.fst) :
    (l.acquire o).2.WellFormed := by
  rw [AsyncLock.acquire]
  split
  case isTrue hfree =>
    refine ⟨h.nodup, h.rest, fun _ w hw => ?_, nofun⟩
    rw [hfree.2 w hw]
    simp [LockFuture.IsCalled]
  case isFalse hbusy =>
    have hnew : ¬LockFuture.IsCalled .pending := by simp [LockFuture.IsCalled]
    refine ⟨?_, fun w hw => ?_, fun hl w hw => ?_, fun hl w hw => ?_⟩
    · rw [List.map_append, List.nodup_append]
      refine ⟨h.nodup, List.nodup_singleton _, fun o₁ h₁ o₂ h₂ heq => ho ?_⟩
      obtain rfl := List.mem_singleton.1 h₂
      exact heq ▸ h₁
    · rcases List.mem_append.1 (mem_tail_append hw) with hw | hw
      · exact h.rest w hw
      · exact List.mem_singleton.1 hw ▸ hnew
    · rcases List.mem_append.1 hw with hw | hw
      · exact h.locked hl w hw
      · exact List.mem_singleton.1 hw ▸ hnew
    · -- Had none been waiting for the free lock, it would have been taken.
      cases hws : l.waiters with
      | nil => exact absurd ⟨hl, by simp [hws]⟩ hbusy
      | cons w' ws =>
        rw [hws, List.cons_append, List.head?_cons] at hw
        exact h.free hl w (by rw [hws]; exact hw)

omit [DecidableEq O] in
theorem WellFormed.release (h : l.WellFormed) (hr : l.release = some l') : l'.WellFormed := by
  obtain ⟨-, rfl⟩ := release_eq_some_iff.1 hr
  exact ⟨by simpa using h.nodup, by simpa using h.rest, nofun,
    fun _ => ne_pending_of_head?_wakeUpFirst⟩

theorem WellFormed.cancel (h : l.WellFormed) (o : O) : (l.cancel o).WellFormed := by
  have hcalled : ∀ w : O × LockFuture,
      (if w.1 = o then (w.1, w.2.cancel) else w).2.IsCalled ↔ w.2.IsCalled := by
    intro w
    split
    · exact LockFuture.isCalled_cancel
    · exact Iff.rfl
  refine ⟨?_, fun w hw => ?_, fun hl w hw => ?_, fun hl w hw => ?_⟩
  · rw [map_fst_cancel]
    exact h.nodup
  · rw [AsyncLock.cancel, ← List.map_tail] at hw
    obtain ⟨w₀, hw₀, rfl⟩ := List.mem_map.1 hw
    rw [hcalled]
    exact h.rest w₀ hw₀
  · obtain ⟨w₀, hw₀, rfl⟩ := List.mem_map.1 hw
    rw [hcalled]
    exact h.locked hl w₀ hw₀
  · rw [AsyncLock.cancel, List.head?_map, Option.mem_def, Option.map_eq_some_iff] at hw
    obtain ⟨w₀, hw, rfl⟩ := hw
    split
    · exact LockFuture.cancel_ne_pending
    · exact h.free hl w₀ hw

/-- Only a cancelled task resumes without the lock. -/
theorem future_of_giveUp (hr : l.resume o = some (false, l')) :
    ∃ f, f.IsCancelled ∧ l.future o = some f := by
  rw [resume] at hr
  cases hf : l.future o with
  | none => simp [hf] at hr
  | some f =>
    cases f with
    | pending | called => simp [hf] at hr
    | cancelled => exact ⟨_, .inl rfl, rfl⟩
    | revoked => exact ⟨_, .inr rfl, rfl⟩

/-- No task is cancelled by the resumption of another. -/
theorem mem_of_mem_resume (hr : l.resume o = some (taken, l')) (hf : f.IsCancelled)
    (h : (o', f) ∈ l'.waiters) : (o', f) ∈ l.waiters := by
  have hothers : (o', f) ∈ l.others o → (o', f) ∈ l.waiters := fun h => (mem_others.1 h).1
  rw [resume] at hr
  cases hfut : l.future o with
  | none => simp [hfut] at hr
  | some f₀ =>
    cases f₀ with
    | pending => simp [hfut] at hr
    | called =>
      obtain ⟨-, rfl⟩ : true = taken ∧ _ = l' := by simpa [hfut] using hr
      exact hothers h
    | cancelled | revoked =>
      obtain ⟨-, rfl⟩ : false = taken ∧ _ = l' := by simpa [hfut] using hr
      dsimp only at h
      split at h
      · exact hothers h
      · exact hothers (mem_of_mem_wakeUpFirst hf h)

/-- How a waiting task resumes: it takes the free lock, being the first of those that wait, or
    leaves it to the others. -/
theorem resume_cases (h : l.WellFormed) (hr : l.resume o = some (taken, l')) :
    taken = true ∧ l.locked = false ∧ l.waiters.head? = some (o, .called) ∧
        l' = ⟨true, l.others o⟩ ∨
      taken = false ∧ l.locked = true ∧ l' = ⟨true, l.others o⟩ ∨
      taken = false ∧ l.locked = false ∧ l' = ⟨false, wakeUpFirst (l.others o)⟩ := by
  rw [resume] at hr
  cases hf : l.future o with
  | none => simp [hf] at hr
  | some f =>
    have hmem := (future_eq_some_iff h.nodup).1 hf
    cases f with
    | pending => simp [hf] at hr
    | called =>
      obtain ⟨rfl, rfl⟩ : true = taken ∧ _ = l' := by simpa [hf] using hr
      obtain ⟨hl, hhead⟩ := h.head?_of_isCalled hmem (.inl rfl)
      exact .inl ⟨rfl, hl, hhead, rfl⟩
    | cancelled | revoked =>
      obtain ⟨rfl, rfl⟩ : false = taken ∧ _ = l' := by simpa [hf] using hr
      cases hl : l.locked with
      | true => exact .inr (.inl ⟨rfl, rfl, rfl⟩)
      | false => exact .inr (.inr ⟨rfl, rfl, rfl⟩)

/-- Those that wait behind others did so before one of them left. -/
theorem mem_tail_of_mem_tail_others {w : O × LockFuture} (hw : w ∈ (l.others o).tail) :
    w ∈ l.waiters.tail := by
  rw [others] at hw
  cases hws : l.waiters with
  | nil => simp [hws] at hw
  | cons w' ws =>
    rw [hws, List.filter_cons] at hw
    split at hw
    · exact List.mem_of_mem_filter hw
    · exact List.mem_of_mem_filter (List.mem_of_mem_tail hw)

theorem WellFormed.resume (h : l.WellFormed) (hr : l.resume o = some (taken, l')) :
    l'.WellFormed := by
  have hnodup : ((l.others o).map Prod.fst).Nodup := h.nodup.sublist map_fst_others_sublist
  have hrest : ∀ w ∈ (l.others o).tail, ¬w.2.IsCalled := fun w hw =>
    h.rest w (mem_tail_of_mem_tail_others hw)
  rcases resume_cases h hr with ⟨-, -, hhead, rfl⟩ | ⟨-, hl, rfl⟩ | ⟨-, -, rfl⟩
  · refine ⟨hnodup, hrest, fun _ w hw => ?_, nofun⟩
    -- The others were waiting behind.
    obtain ⟨hw, hne⟩ := mem_others.1 hw
    cases hws : l.waiters with
    | nil => simp [hws] at hw
    | cons w' ws =>
      rw [hws, List.head?_cons, Option.some.injEq] at hhead
      rw [hws, hhead] at hw
      rcases List.mem_cons.1 hw with rfl | hw
      · exact absurd rfl hne
      · exact h.rest w (by rwa [hws])
  · exact ⟨hnodup, hrest, fun _ w hw => h.locked hl w (mem_others.1 hw).1, nofun⟩
  · exact ⟨by simpa using hnodup, by simpa using hrest, nofun,
      fun _ => ne_pending_of_head?_wakeUpFirst⟩

end AsyncLock
