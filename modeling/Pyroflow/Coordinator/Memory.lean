import Pyroflow.Coordinator

/-!
# The in-memory listener coordinator

`MemoryListenerCoordinator`: the registrations of one session in a dictionary,
`data`, with tokens drawn from a counter. The state carries what the counter is
for: the tokens in `data` were drawn from it, and each stands under one key.

As none of its methods suspends, a call is never interrupted inside one. It
publishes no cancel signals. It keeps the coordinators' contract
(`memoryCoordinator`); `stop` starts the counter again, so that its tokens are
fresh between two stops only.
-/

namespace Pyroflow

/-- The state of a `MemoryListenerCoordinator`. -/
structure MemoryListenerCoordinator where
  /-- The token registered under a key. -/
  data : ListenerKey → Option ℕ
  /-- The next token. -/
  counter : ℕ
  lt_counter : ∀ {key n}, data key = some n → n < counter
  data_inj : ∀ {key key' n}, data key = some n → data key' = some n → key = key'

namespace MemoryListenerCoordinator

/-- The registry in memory: the tokens issued are those below the counter. -/
def view (m : MemoryListenerCoordinator) : TokenRegistry ListenerKey ℕ where
  current := m.data
  issued := {n | n < m.counter}
  mem_issued := m.lt_counter
  inj := m.data_inj

@[simp] theorem current_view (m : MemoryListenerCoordinator) : m.view.current = m.data := rfl

/-- The state with the registrations of a registry whose tokens are below the
    counter. -/
def ofView (r : TokenRegistry ListenerKey ℕ) (counter : ℕ) (h : r.issued = {n | n < counter}) :
    MemoryListenerCoordinator where
  data := r.current
  counter := counter
  lt_counter hk := by simpa [h] using r.mem_issued hk
  data_inj := r.inj

@[simp] theorem view_ofView {r : TokenRegistry ListenerKey ℕ} {counter : ℕ}
    (h : r.issued = {n | n < counter}) : (ofView r counter h).view = r :=
  TokenRegistry.ext rfl h.symm

variable (m : MemoryListenerCoordinator)

/-- No registrations, and the counter at its start. -/
def empty : MemoryListenerCoordinator where
  data _ := none
  counter := 0
  lt_counter h := by simp at h
  data_inj h := by simp at h

/-- `_registered`. -/
def registered (key : ListenerKey) (coordinatorId : Option ℕ) : Bool :=
  match m.data key with
  | some rId => coordinatorId = none ∨ coordinatorId = some rId
  | none => false

/-- The token the counter gives next was not issued. -/
theorem counter_notMem : m.counter ∉ m.view.issued := lt_irrefl m.counter

theorem issued_issue (key : ListenerKey) :
    (m.view.issue key m.counter m.counter_notMem).issued = {n | n < m.counter + 1} := by
  ext n
  change n = m.counter ∨ n < m.counter ↔ n < m.counter + 1
  omega

theorem issued_revoke (key : ListenerKey) :
    (m.view.revoke key).issued = {n | n < m.counter} := rfl

/-- `_register`: `none` when it raises `KeyError`. -/
def register (key : ListenerKey) : Option (ℕ × MemoryListenerCoordinator) :=
  if m.registered key none then none
  else some (m.counter,
    ofView (m.view.issue key m.counter m.counter_notMem) (m.counter + 1) (m.issued_issue key))

/-- `_unregister`. An entry that is popped but holds another token is put back,
    which leaves the dictionary as it was. -/
def unregister (key : ListenerKey) (coordinatorId : Option ℕ) : Bool × MemoryListenerCoordinator :=
  match m.data key with
  | some rId =>
    if coordinatorId ≠ none ∧ coordinatorId ≠ some rId then (false, m)
    else (true, ofView (m.view.revoke key) m.counter (m.issued_revoke key))
  | none => (true, m)

/-- `_cancel`. -/
def cancel (key : ListenerKey) : Bool × MemoryListenerCoordinator := m.unregister key none

/-- `stop`: the counter starts again, and the data is cleared. -/
def stop (_ : MemoryListenerCoordinator) : MemoryListenerCoordinator := empty

variable {m} {key key' : ListenerKey} {n : ℕ} {m' : MemoryListenerCoordinator}

theorem registered_none_eq : m.registered key none = (m.data key).isSome := by
  rw [registered]
  split <;> simp [*]

theorem registered_some_iff : m.registered key (some n) = true ↔ m.data key = some n := by
  rw [registered]
  split <;> simp [*, eq_comm]

theorem register_eq_some (h : m.register key = some (n, m')) :
    m.data key = none ∧ ∃ hn : n ∉ m.view.issued, m'.view = m.view.issue key n hn := by
  rw [register] at h
  split at h
  · cases h
  · rename_i hr
    rw [registered_none_eq, Option.isSome_iff_ne_none, not_not] at hr
    cases h
    exact ⟨hr, m.counter_notMem, view_ofView _⟩

/-- The token issued is the one the counter gives. -/
theorem eq_counter_of_register (h : m.register key = some (n, m')) : n = m.counter := by
  rw [register] at h
  split at h
  · cases h
  · cases h
    rfl

/-- A key that is not registered is registered with the next token. -/
theorem register_of_free (h : m.data key = none) :
    ∃ m', m.register key = some (m.counter, m') := by
  have hr : m.registered key none = false := by
    rw [registered_none_eq, h]
    rfl
  exact ⟨_, if_neg (by rw [hr]; exact nofun)⟩

theorem register_eq_none (h : m.register key = none) : m.data key ≠ none := by
  rw [register] at h
  split at h
  · rename_i hr
    rwa [registered_none_eq, Option.isSome_iff_ne_none] at hr
  · cases h

theorem view_unregister : (m.unregister key (some n)).2.view = m.view.withdraw key n := by
  rw [unregister, TokenRegistry.withdraw]
  split
  · rename_i rId hr
    by_cases hn : n = rId
    · simp [hn, hr]
    · simp [hn, hr, Ne.symm hn]
  · rename_i hr
    simp [hr]

theorem view_cancel : (m.cancel key).2.view = m.view.revoke key := by
  rw [cancel, unregister]
  split
  · simp
  · rename_i hr
    refine TokenRegistry.ext ?_ rfl
    exact (Function.update_eq_self_iff.2 hr.symm).symm

end MemoryListenerCoordinator

/-- The coordinator of one session, in memory. -/
def memoryCoordinator : ListenerCoordinator Unit where
  Token := ℕ
  State := MemoryListenerCoordinator
  init := .empty
  registered m _ := m.registered
  Registers m _ key n m' := m.register key = some (n, m')
  RegisterFails m _ key := m.register key = none
  unregister m _ := m.unregister
  cancel m _ := m.cancel
  stop m _ := m.stop
  Signalled _ _ _ := False
  view := MemoryListenerCoordinator.view
  view_init := TokenRegistry.ext rfl (Set.eq_empty_of_forall_notMem fun _ => Nat.not_lt_zero _)
  registered_none _ _ _ := MemoryListenerCoordinator.registered_none_eq
  registered_some _ _ _ _ := MemoryListenerCoordinator.registered_some_iff
  register_free h := (MemoryListenerCoordinator.register_eq_some h).1
  register_view h := (MemoryListenerCoordinator.register_eq_some h).2
  register_taken := MemoryListenerCoordinator.register_eq_none
  unregister_view _ _ _ _ := MemoryListenerCoordinator.view_unregister
  cancel_view _ _ _ := MemoryListenerCoordinator.view_cancel
  stop_view _ _ _ _ h := by cases h
  signalled_retired h := h.elim

end Pyroflow
