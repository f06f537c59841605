import Pyroflow.Coordinator.Ownership

/-!
# Removals that fail

`unregister` and `cancel` change the session's own record before they ask Redis to
delete the registration: when Redis raises, the record is left as they changed it
(`RedisListenerCoordinator.raises`), while the registration stays.

So a call that raises forgets nothing exactly when there was nothing to pop
(`Removal.Unrecorded`): no record for the key, or, where the call names an id,
another one. In the runs where the calls that raise are such, a stopping session
still removes its registrations (`raises_keeps_iff`). Otherwise a registration
of the session stays in Redis after its `stop` (`redis_stop_raises`), and,
having no expiry, blocks its key for every session.
-/

namespace Pyroflow

variable {Sess Token : Type}

/-- The calls that remove a registration. -/
inductive Removal (Token : Type)
  | unregister (coordinatorId : Option Token)
  | cancel

/-- What the call does to the record of the session before Redis is asked: the id
    recorded for the key is popped, and put back if it is not the one given. -/
def Removal.pop [DecidableEq Token] (dict : ListenerKey → Option Token) (key : ListenerKey) :
    Removal Token → ListenerKey → Option Token
  | .unregister none => Function.update dict key none
  | .unregister (some coordinatorId) =>
    match dict key with
    | some cid =>
      if cid ≠ coordinatorId then Function.update (Function.update dict key none) key (some cid)
      else Function.update dict key none
    | none => Function.update dict key none
  | .cancel => Function.update dict key none

/-- There is nothing to pop: the call pops the id recorded for the key, if it is not
    put back. -/
def Removal.Unrecorded (recorded : Option Token) : Removal Token → Prop
  | .unregister none => recorded = none
  | .unregister (some coordinatorId) => recorded ≠ some coordinatorId
  | .cancel => recorded = none

theorem Removal.pop_eq_self_iff [DecidableEq Token] {dict : ListenerKey → Option Token}
    {key : ListenerKey} {c : Removal Token} : c.pop dict key = dict ↔ c.Unrecorded (dict key) := by
  have hnone : Function.update dict key none = dict ↔ dict key = none := by
    rw [Function.update_eq_self_iff, eq_comm]
  rcases c with ⟨_ | coordinatorId⟩ | _
  · exact hnone
  · rw [Removal.pop, Removal.Unrecorded]
    cases h : dict key with
    | none => simpa using hnone.2 h
    | some cid =>
      by_cases hcid : cid = coordinatorId
      · simp [hcid, hnone, h]
      · simp [hcid, h]
  · exact hnone

namespace RedisListenerCoordinator

variable [DecidableEq Sess] [DecidableEq Token]

/-- The call of a session raises, as Redis does: Redis is unchanged. -/
def raises (r : RedisListenerCoordinator Sess Token) (σ : Sess) (key : ListenerKey)
    (c : Removal Token) : RedisListenerCoordinator Sess Token :=
  { r with
    ownedRegistrations :=
      Function.update r.ownedRegistrations σ (c.pop (r.ownedRegistrations σ) key) }

variable {r : RedisListenerCoordinator Sess Token} {σ : Sess} {key : ListenerKey} {t : Token}
  {c : Removal Token}

/-- Where Redis answers, the record is left as the call changed it before. -/
theorem ownedRegistrations_unregister {id : Option Token} :
    (r.unregister σ key id).2.ownedRegistrations =
      (r.raises σ key (.unregister id)).ownedRegistrations := by
  cases id with
  | none => rfl
  | some coordinatorId =>
    change (if r.ownedRegistrations σ key = some coordinatorId then r.own σ key none
      else r.ownedRegistrations) = Function.update r.ownedRegistrations σ
        (Removal.pop (r.ownedRegistrations σ) key (.unregister (some coordinatorId)))
    split_ifs with h
    · simp [own, Removal.pop, h]
    · have hpop : Removal.pop (r.ownedRegistrations σ) key (.unregister (some coordinatorId)) =
          r.ownedRegistrations σ := Removal.pop_eq_self_iff.2 h
      rw [hpop, Function.update_eq_self]

theorem ownedRegistrations_cancel :
    (r.cancel σ key).2.ownedRegistrations = (r.raises σ key .cancel).ownedRegistrations := by
  rw [cancel]
  split <;> rfl

/-- The record is that of before exactly where there was nothing to pop. -/
theorem ownedRegistrations_raises_iff :
    (r.raises σ key c).ownedRegistrations = r.ownedRegistrations ↔
      c.Unrecorded (r.ownedRegistrations σ key) := by
  rw [← Removal.pop_eq_self_iff, raises, Function.update_eq_self_iff, eq_comm]

theorem raises_eq_self (h : c.Unrecorded (r.ownedRegistrations σ key)) : r.raises σ key c = r := by
  have howned := ownedRegistrations_raises_iff.2 h
  cases r
  simpa [raises] using howned

/-- A record that is popped is gone. -/
theorem ownedRegistrations_raises (h : ¬c.Unrecorded (r.ownedRegistrations σ key)) :
    (r.raises σ key c).ownedRegistrations σ key = none := by
  simp only [raises, Function.update_self]
  rcases c with ⟨_ | coordinatorId⟩ | _
  · exact Function.update_self ..
  · simp [Removal.pop, not_not.1 h]
  · exact Function.update_self ..

/-- A registration whose record was popped is not deleted by `stop`. -/
theorem redis_stop_raises (h : ¬c.Unrecorded (r.ownedRegistrations σ key)) :
    ((r.raises σ key c).stop σ).redis key = some t ↔ r.redis key = some t := by
  rw [redis_stop, ownedRegistrations_raises h]
  exact and_iff_left (by simp)

end RedisListenerCoordinator

namespace Sessions

variable [DecidableEq Sess] [DecidableEq Token]

/-- The calls of the sessions, and those on which Redis raises. -/
inductive RaisingCall (Sess Token : Type)
  | answered (call : SessionCall Sess Token)
  | raises (σ : Sess) (key : ListenerKey) (c : Removal Token)

/-- The steps of the sessions, where Redis may raise. -/
inductive RaisingStep (s : Sessions Sess Token) :
    RaisingCall Sess Token → Sessions Sess Token → Prop
  | answered {call s'} (h : Step s call s') : RaisingStep s (.answered call) s'
  | raises {σ key c} :
      RaisingStep s (.raises σ key c) { s with coordinator := s.coordinator.raises σ key c }

variable (Sess Token) in
/-- The sessions, on a Redis that may raise. -/
def raisingLts : Lts (Sessions Sess Token) (RaisingCall Sess Token) where
  init := (lts Sess Token).init
  step := RaisingStep

/-- A call on which Redis raises has nothing to pop. -/
def Spared (s : Sessions Sess Token) : RaisingCall Sess Token → Prop
  | .answered _ => True
  | .raises σ key c => c.Unrecorded (s.coordinator.ownedRegistrations σ key)

variable {s s' : Sessions Sess Token}

/-- Calls that raise with nothing to pop are as if they had not been made. -/
theorem reachable_of_spared (h : (raisingLts Sess Token).ReachableUnder Spared s) :
    (lts Sess Token).Reachable s := by
  refine h.invariant (fun _ h₀ => .init h₀) fun s l s' hs hp hst => ?_
  cases hst with
  | answered h => exact hs.tail trivial h
  | @raises σ key c => exact (RedisListenerCoordinator.raises_eq_self hp).symm ▸ hs

/-- A removal that fails leaves the record of the session as it was exactly where it has
    nothing to pop. In the runs where the removals that fail are such, no key holds a token
    of a session that has stopped. -/
theorem raises_keeps_iff :
    (∀ (r : RedisListenerCoordinator Sess Token) σ key (c : Removal Token),
      (r.raises σ key c).ownedRegistrations = r.ownedRegistrations ↔
        c.Unrecorded (r.ownedRegistrations σ key)) ∧
    ∀ (s s' : Sessions Sess Token) σ, (raisingLts Sess Token).ReachableUnder Spared s →
      Step s (.stop σ) s' → ∀ key t, s'.coordinator.redis key = some t → s'.issuer t ≠ some σ := by
  refine ⟨fun _ _ _ _ => RedisListenerCoordinator.ownedRegistrations_raises_iff,
    fun s s' σ h hst key t hr hi => ?_⟩
  have ho := owned_of_reachable (reachable_of_spared h)
  cases hst
  obtain ⟨hr, hne⟩ := RedisListenerCoordinator.redis_stop.1 hr
  obtain ⟨σ', hi', hown⟩ := ho.redis hr
  obtain rfl := Option.some.inj (hi.symm.trans hi')
  exact hne hown

/-- A session cancels the listener of another one, which Redis does not answer, then
    registers its own and stops. -/
theorem raises_keeps_iff_cancel : ∃ s s' : Sessions ℕ ℕ, Step s (.stop 1) s' ∧
    s.coordinator.redis ⟨2, none, none⟩ = some 20 ∧
    s'.coordinator.redis ⟨2, none, none⟩ ≠ some 20 := by
  have h₀ : (raisingLts ℕ ℕ).ReachableUnder Spared ⟨.empty, fun _ => none⟩ := .init rfl
  have h₁ := h₀.tail (l := RaisingCall.answered (.register 0 ⟨1, none, none⟩ 10)) trivial
    (.answered (.register (Set.notMem_empty _) rfl))
  have h₂ := h₁.tail (l := RaisingCall.raises 1 ⟨1, none, none⟩ .cancel) rfl .raises
  have h₃ := h₂.tail (l := RaisingCall.answered (.register 1 ⟨2, none, none⟩ 20)) trivial
    (.answered (.register (by rintro (⟨⟨⟩⟩ | ⟨⟨⟩⟩)) rfl))
  obtain ⟨s, h, hr, hi⟩ : ∃ s, (raisingLts ℕ ℕ).ReachableUnder Spared s ∧
      s.coordinator.redis ⟨2, none, none⟩ = some 20 ∧ s.issuer 20 = some 1 := ⟨_, h₃, rfl, rfl⟩
  exact ⟨s, _, .stop, hr, fun hk => raises_keeps_iff.2 s _ 1 h .stop _ 20 hk hi⟩

/-- A session cancels its own listener, and Redis raises: the session forgets it, and its
    `stop` leaves it in Redis. -/
theorem cancel_forgets : ∃ s : Sessions ℕ ℕ, (lts ℕ ℕ).Reachable s ∧
    let r := s.coordinator.raises 0 ⟨1, none, none⟩ .cancel
    s.coordinator.redis ⟨1, none, none⟩ = some 10 ∧ s.issuer 10 = some 0 ∧
      r.ownedRegistrations ≠ s.coordinator.ownedRegistrations ∧
      (r.stop 0).redis ⟨1, none, none⟩ = some 10 := by
  have h₀ : (lts ℕ ℕ).Reachable ⟨.empty, fun _ => none⟩ := .init rfl
  have h₁ := h₀.tail (l := SessionCall.register 0 ⟨1, none, none⟩ 10) trivial
    (.register (Set.notMem_empty _) rfl)
  obtain ⟨s, h, hr, hi, ho⟩ : ∃ s, (lts ℕ ℕ).Reachable s ∧
      s.coordinator.redis ⟨1, none, none⟩ = some 10 ∧ s.issuer 10 = some 0 ∧
      s.coordinator.ownedRegistrations 0 ⟨1, none, none⟩ = some 10 := ⟨_, h₁, rfl, rfl, rfl⟩
  have hc : ¬Removal.cancel.Unrecorded (s.coordinator.ownedRegistrations 0 ⟨1, none, none⟩) := by
    rw [ho]
    exact nofun
  exact ⟨s, h, hr, hi, fun heq => hc (RedisListenerCoordinator.ownedRegistrations_raises_iff.1 heq),
    (RedisListenerCoordinator.redis_stop_raises hc).2 hr⟩

end Sessions

end Pyroflow
