import Pyroflow.Coordinator

/-!
# The Redis listener coordinator

`RedisListenerCoordinator`, for any number of sessions on one Redis: the
registry in Redis, under the packed keys (packing is injective, so that the keys
themselves stand for them), and, in each session, the registrations it owns. The
tokens are uuids, taken to be distinct: those drawn so far are recorded. So are
the cancel signals published so far, which a session may receive at any later
time, in any order, any number of times, or never.

Each operation is one command or script that Redis runs atomically; the change
of the session's own record goes with it. The state carries what the coordinator
relies on: the tokens in Redis were drawn, each stands under one key, and the
signals name tokens that are gone from Redis. It keeps the coordinators'
contract (`redisCoordinator`).
-/

namespace Pyroflow

/-- The state of Redis, and of the sessions' `RedisListenerCoordinator`s. -/
structure RedisListenerCoordinator (Sess Token : Type) where
  /-- The registry in Redis. -/
  redis : ListenerKey → Option Token
  /-- `_owned_registrations` of each session. -/
  ownedRegistrations : Sess → ListenerKey → Option Token
  /-- The uuids drawn so far. -/
  drawn : Set Token
  /-- The payloads published on the cancel channel so far. -/
  published : List (ListenerKey × Token)
  mem_drawn : ∀ {key t}, redis key = some t → t ∈ drawn
  redis_inj : ∀ {key key' t}, redis key = some t → redis key' = some t → key = key'
  published_gone : ∀ {key t}, (key, t) ∈ published → t ∈ drawn ∧ ∀ key', redis key' ≠ some t

namespace RedisListenerCoordinator

variable {Sess Token : Type}

/-- The registry in Redis: the tokens issued are those drawn. -/
def view (r : RedisListenerCoordinator Sess Token) : TokenRegistry ListenerKey Token where
  current := r.redis
  issued := r.drawn
  mem_issued := r.mem_drawn
  inj := r.redis_inj

/-- The state where Redis holds a later registry, with the ownership records
    given and with further signals, naming retired tokens. -/
def advance (r : RedisListenerCoordinator Sess Token) (v : TokenRegistry ListenerKey Token)
    (hv : r.view ≤ v) (owned : Sess → ListenerKey → Option Token)
    (signals : List (ListenerKey × Token)) (hs : ∀ p ∈ signals, v.Retired p.2) :
    RedisListenerCoordinator Sess Token where
  redis := v.current
  ownedRegistrations := owned
  drawn := v.issued
  published := signals ++ r.published
  mem_drawn := v.mem_issued
  redis_inj := v.inj
  published_gone {key t} h := by
    rcases List.mem_append.1 h with h | h
    · exact hs _ h
    · exact TokenRegistry.Retired.mono (r := r.view) (r.published_gone h) hv

/-- Nothing registered, drawn or published. -/
def empty : RedisListenerCoordinator Sess Token where
  redis _ := none
  ownedRegistrations _ _ := none
  drawn := ∅
  published := []
  mem_drawn h := by simp at h
  redis_inj h := by simp at h
  published_gone h := by simp at h

variable [DecidableEq Sess] [DecidableEq Token] (r : RedisListenerCoordinator Sess Token)

/-- The ownership records with the one of the session `σ` for `key` set. -/
def own (σ : Sess) (key : ListenerKey) (t : Option Token) : Sess → ListenerKey → Option Token :=
  Function.update r.ownedRegistrations σ (Function.update (r.ownedRegistrations σ) key t)

/-- `registered`: a `GET`. -/
def registered (key : ListenerKey) (coordinatorId : Option Token) : Bool :=
  match r.redis key with
  | none => false
  | some value => coordinatorId = none ∨ coordinatorId = some value

/-- `register`: a `SET NX` of the uuid drawn; `none` when it raises `KeyError`. -/
def register (σ : Sess) (key : ListenerKey) (uuid : Token) (h : uuid ∉ r.drawn) :
    Option (RedisListenerCoordinator Sess Token) :=
  match r.redis key with
  | some _ => none
  | none => some (r.advance (r.view.issue key uuid h) (TokenRegistry.le_issue h)
      (r.own σ key (some uuid)) [] (by simp))

/-- `unregister`. Given an id, the ownership record is popped, and put back when
    it holds another one, and the script `LUA_UNREGISTER_SCRIPT` compares and
    deletes; without one, the record is popped and the key deleted. -/
def unregister (σ : Sess) (key : ListenerKey) (coordinatorId : Option Token) :
    Bool × RedisListenerCoordinator Sess Token :=
  match coordinatorId with
  | none =>
    ((r.redis key).isSome,
      r.advance (r.view.revoke key) TokenRegistry.le_revoke (r.own σ key none) [] (by simp))
  | some cId =>
    (r.redis key = none ∨ r.redis key = some cId,
      r.advance (r.view.withdraw key cId) TokenRegistry.le_withdraw
        (if r.ownedRegistrations σ key = some cId then r.own σ key none else r.ownedRegistrations)
        [] (by simp))

/-- `cancel`: the ownership record is popped, the registration is deleted by the
    script `LUA_GETDEL_SCRIPT`, and the id it held is published. -/
def cancel (σ : Sess) (key : ListenerKey) : Bool × RedisListenerCoordinator Sess Token :=
  match h : r.redis key with
  | none =>
    (false, r.advance (r.view.revoke key) TokenRegistry.le_revoke (r.own σ key none) [] (by simp))
  | some cancelledId =>
    (true, r.advance (r.view.revoke key) TokenRegistry.le_revoke (r.own σ key none)
      [(key, cancelledId)] (by
        simpa using TokenRegistry.retired_of_ne (r := r.view) h TokenRegistry.le_revoke (by simp)))

/-- `LUA_BULK_UNREGISTER_SCRIPT`: every key that still holds the token recorded
    for it is deleted. -/
def bulkUnregister (owned : ListenerKey → Option Token) : TokenRegistry ListenerKey Token where
  current key := if r.redis key ≠ none ∧ owned key = r.redis key then none else r.redis key
  issued := r.drawn
  mem_issued h := by
    split at h
    · cases h
    · exact r.mem_drawn h
  inj h h' := by
    split at h <;> split at h' <;> first | cases h | cases h' | exact r.redis_inj h h'

omit [DecidableEq Sess] in
theorem le_bulkUnregister (owned : ListenerKey → Option Token) :
    r.view ≤ r.bulkUnregister owned := by
  refine ⟨subset_rfl, fun key t _ h => ?_⟩
  simp only [bulkUnregister] at h
  split at h
  · cases h
  · exact h

/-- `stop`: the registrations the session owns are deleted from Redis, and its
    records cleared. -/
def stop (σ : Sess) : RedisListenerCoordinator Sess Token :=
  r.advance (r.bulkUnregister (r.ownedRegistrations σ)) (r.le_bulkUnregister _)
    (Function.update r.ownedRegistrations σ fun _ => none) [] (by simp)

variable {r} {σ : Sess} {key : ListenerKey} {t : Token} {r' : RedisListenerCoordinator Sess Token}

omit [DecidableEq Sess] in
theorem registered_none_eq : r.registered key none = (r.redis key).isSome := by
  rw [registered]
  split <;> simp [*]

omit [DecidableEq Sess] in
theorem registered_some_iff : r.registered key (some t) = true ↔ r.redis key = some t := by
  rw [registered]
  split <;> simp [*, eq_comm]

omit [DecidableEq Token] in
theorem register_eq_some {h : t ∉ r.drawn} (hr : r.register σ key t h = some r') :
    r.redis key = none ∧ r'.view = r.view.issue key t h := by
  rw [register] at hr
  split at hr
  · cases hr
  · cases hr
    exact ⟨‹_›, rfl⟩

omit [DecidableEq Token] in
theorem register_eq_none {h : t ∉ r.drawn} (hr : r.register σ key t h = none) :
    r.redis key ≠ none := by
  rw [register] at hr
  split at hr
  · simp [*]
  · cases hr

omit [DecidableEq Token] in
theorem view_cancel : (r.cancel σ key).2.view = r.view.revoke key := by
  rw [cancel]
  split <;> rfl

/-! The signals published so far stay so, and `cancel` publishes one more. -/

omit [DecidableEq Token] in
theorem published_cancel (h : r.redis key = some t) : (key, t) ∈ (r.cancel σ key).2.published := by
  rw [cancel]
  split
  case h_1 hn => exact absurd (hn.symm.trans h) nofun
  case h_2 cancelledId hc =>
    obtain rfl := Option.some.inj (hc.symm.trans h)
    exact List.mem_cons_self

omit [DecidableEq Token] in
theorem published_subset_cancel : r.published ⊆ (r.cancel σ key).2.published := by
  rw [cancel]
  split
  · exact List.Subset.refl _
  · exact List.subset_cons_self _ _

omit [DecidableEq Token] in
theorem published_register {h : t ∉ r.drawn} (hr : r.register σ key t h = some r') :
    r'.published = r.published := by
  rw [register] at hr
  split at hr
  · cases hr
  · cases hr
    rfl

end RedisListenerCoordinator

open RedisListenerCoordinator in
/-- The coordinators of the sessions `Sess` on one Redis. -/
def redisCoordinator (Sess Token : Type) [DecidableEq Sess] [DecidableEq Token] :
    ListenerCoordinator Sess where
  Token := Token
  State := RedisListenerCoordinator Sess Token
  init := .empty
  registered r _ := r.registered
  Registers r σ key uuid r' := ∃ h, r.register σ key uuid h = some r'
  RegisterFails r σ key := ∃ uuid h, r.register σ key uuid h = none
  unregister := RedisListenerCoordinator.unregister
  cancel := RedisListenerCoordinator.cancel
  stop := RedisListenerCoordinator.stop
  Signalled r key t := (key, t) ∈ r.published
  view := RedisListenerCoordinator.view
  view_init := rfl
  registered_none _ _ _ := registered_none_eq
  registered_some _ _ _ _ := registered_some_iff
  register_free := fun ⟨_, h⟩ => (register_eq_some h).1
  register_view := fun ⟨h, hr⟩ => ⟨h, (register_eq_some hr).2⟩
  register_taken := fun ⟨_, _, h⟩ => register_eq_none h
  unregister_view _ _ _ _ := rfl
  cancel_view _ _ _ := view_cancel
  stop_view r σ k t h := by
    change (r.bulkUnregister (r.ownedRegistrations σ)).current k = some t at h
    simp only [RedisListenerCoordinator.bulkUnregister] at h
    split at h
    · cases h
    · exact h
  signalled_retired := fun {r _ _} h => r.published_gone h

end Pyroflow
