import Pyroflow.Lib.TokenRegistry
import Pyroflow.Models

/-!
# Listener coordinators

A listener coordinator (`ListenerCoordinator`, after the abstract class of the
same name) keeps the registrations of the listeners of some sessions: a backend
state, shared by the sessions, and the operations a session performs on it.
Registering is a relation, as the token it issues may be drawn at random.

Besides its methods, a coordinator carries the contract its documentation
states: its backend is, abstractly, a registry of generation tokens
(`ListenerCoordinator.view`), on which

* `register` issues a fresh token to a free key, and fails on a taken one;
* `unregister`, given a token, withdraws that token only;
* `cancel` revokes the registration of the key;
* the cancel signals published name retired tokens.

The in-memory coordinator (`Pyroflow.Coordinator.Memory`) and the Redis one
(`Pyroflow.Coordinator.Redis`) are shown to keep it. The chat locks are not part
of the backend state: they are held by the calls (`Pyroflow.Listener`).
-/

namespace Pyroflow

/-- A listener coordinator, for the sessions `Sess` sharing one backend. -/
structure ListenerCoordinator (Sess : Type) where
  /-- The tokens (`coordinator_id`) it issues. -/
  Token : Type
  [decEqToken : DecidableEq Token]
  /-- The states of the backend. -/
  State : Type
  init : State
  /-- `registered(key, coordinator_id)`. -/
  registered : State → Sess → ListenerKey → Option Token → Bool
  /-- `register(key)` returns the token. -/
  Registers : State → Sess → ListenerKey → Token → State → Prop
  /-- `register(key)` raises `KeyError`. -/
  RegisterFails : State → Sess → ListenerKey → Prop
  /-- `unregister(key, coordinator_id)`. -/
  unregister : State → Sess → ListenerKey → Option Token → Bool × State
  /-- `cancel(key)`. -/
  cancel : State → Sess → ListenerKey → Bool × State
  /-- `stop()`. -/
  stop : State → Sess → State
  /-- A cancel signal for the key and the token was published. -/
  Signalled : State → ListenerKey → Token → Prop
  /-- The registry the backend stands for. -/
  view : State → TokenRegistry ListenerKey Token
  view_init : view init = .empty
  registered_none : ∀ b σ k, registered b σ k none = ((view b).current k).isSome
  registered_some : ∀ b σ k t, registered b σ k (some t) = true ↔ (view b).current k = some t
  register_free : ∀ {b σ k t b'}, Registers b σ k t b' → (view b).current k = none
  register_view : ∀ {b σ k t b'}, Registers b σ k t b' →
    ∃ h : t ∉ (view b).issued, view b' = (view b).issue k t h
  register_taken : ∀ {b σ k}, RegisterFails b σ k → (view b).current k ≠ none
  unregister_view : ∀ b σ k t, view (unregister b σ k (some t)).2 = (view b).withdraw k t
  cancel_view : ∀ b σ k, view (cancel b σ k).2 = (view b).revoke k
  stop_view : ∀ b σ k t, (view (stop b σ)).current k = some t → (view b).current k = some t
  signalled_retired : ∀ {b k t}, Signalled b k t → (view b).Retired t

namespace ListenerCoordinator

variable {Sess : Type} (C : ListenerCoordinator Sess)

instance : DecidableEq C.Token := C.decEqToken

/-- The token of the current registration of a key. -/
def current (b : C.State) (k : ListenerKey) : Option C.Token := (C.view b).current k

variable {C} {b b' : C.State} {σ : Sess} {k k' : ListenerKey} {t : C.Token}

theorem registered_none_eq : C.registered b σ k none = (C.current b k).isSome :=
  C.registered_none b σ k

theorem registered_some_iff : C.registered b σ k (some t) = true ↔ C.current b k = some t :=
  C.registered_some b σ k t

theorem current_register (h : C.Registers b σ k t b') :
    C.current b' = Function.update (C.current b) k (some t) := by
  obtain ⟨_, hv⟩ := C.register_view h
  funext k'
  rw [current, hv]
  rfl

theorem current_cancel : C.current (C.cancel b σ k).2 = Function.update (C.current b) k none := by
  funext k'
  rw [current, C.cancel_view]
  rfl

theorem current_unregister_ne : C.current (C.unregister b σ k (some t)).2 k ≠ some t := by
  rw [current, C.unregister_view]
  exact TokenRegistry.withdraw_self_ne

theorem current_unregister_of_ne (hk : k' ≠ k) :
    C.current (C.unregister b σ k (some t)).2 k' = C.current b k' := by
  rw [current, C.unregister_view]
  exact TokenRegistry.withdraw_of_ne hk

/-- A registration that is not withdrawn stays. -/
theorem current_unregister_of_ne_token {t' : C.Token} (ht : t' ≠ t) :
    C.current (C.unregister b σ k (some t)).2 k' = some t' ↔ C.current b k' = some t' := by
  rw [current, C.unregister_view]
  exact TokenRegistry.withdraw_of_ne_token ht

theorem view_le_register (h : C.Registers b σ k t b') : C.view b ≤ C.view b' := by
  obtain ⟨ht, hv⟩ := C.register_view h
  exact hv ▸ TokenRegistry.le_issue ht

theorem view_le_cancel : C.view b ≤ C.view (C.cancel b σ k).2 :=
  C.cancel_view b σ k ▸ TokenRegistry.le_revoke

theorem view_le_unregister : C.view b ≤ C.view (C.unregister b σ k (some t)).2 :=
  C.unregister_view b σ k t ▸ TokenRegistry.le_withdraw

end ListenerCoordinator

end Pyroflow
