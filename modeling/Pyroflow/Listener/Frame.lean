import Pyroflow.Listener.Shared

/-!
# What a step of the listeners changes

A step is that of one call at most (`Label.actor`); the other calls stay where
they are (`Step.same_of_ne`). What is shared changes in few ways:

* a done future stays as it is, and a listener appears only when a call of
  `listen` stores its own (`ListenCall.Step.shrinks`, `ResolveCall.Step.shrinks`,
  `CancelCall.Step.shrinks`);
* the chat lock of a key protects the registration of the key, and the absence
  of listeners under it: the steps of the calls that do not hold the lock leave
  both undisturbed (`Step.undisturbed`);
* the calls only give back locks they hold, so that at any time a chat lock is
  held by one call at most (`guards_of_reachable`).
-/

namespace Pyroflow

variable {Sess : Type} {C : ListenerCoordinator Sess} {Update Metadata : Type}

/-! ### The steps of a call -/

section Steps

open Shared

variable [DecidableEq Sess] {m m' : Shared C Update Metadata} {a : Mutex.Action ℤ}
  {k : ListenerKey} {chat : ℤ}

section Listen

variable {c : CallId} {call : ListenCall C Update Metadata} {e : ListenEvent}
  {pc : ListenPc C.Token Update}

/-- A step of `listen` makes the memory shrink, or stores the listener of the call. -/
theorem ListenCall.Step.shrinks (h : call.Step c m e a m' pc) :
    m.Shrinks m' ∨ e = .store ∧ ∃ t, call.pc = .registered t ∧ pc = .waiting t .none ∧
      m' = m.setListener call.session call.key (some ⟨call.key, call.metadata, c, some t⟩) := by
  cases h with
  | store pc => exact .inr ⟨rfl, _, pc, rfl, rfl⟩
  | replace | replaceInvalid => exact .inl shrinks_cancel
  | replaced | register | unregister => exact .inl shrinks_setBackend
  | timer | interruptWait => exact .inl shrinks_cancelFuture
  | wake => exact .inl (shrinks_failWaiter.trans shrinks_cleanupListen)
  | callback => exact .inl shrinks_callback
  | _ => exact .inl .refl

/-- A call of `listen` takes a chat lock it does not hold, and gives back the one it holds. -/
theorem ListenCall.Step.moves (h : call.Step c m e a m' pc) :
    a.Moves call.holds (ListenCall.holds { call with pc := pc }) := by
  cases h <;> simp_all [ListenCall.holds, Mutex.Action.Moves]

/-- A call of `listen` changes the registration of its key only, under the chat lock. -/
theorem ListenCall.Step.current_eq (h : call.Step c m e a m' pc)
    (hk : call.holds ≠ some k.chatId) : C.current m'.backend k = C.current m.backend k := by
  have hne (hc : call.holds = some call.key.chatId) : k ≠ call.key := fun h => hk (h ▸ hc)
  cases h with
  | replace | replaceInvalid => rw [cancel_backend]
  | replaced pc =>
    rw [setBackend_backend, ListenerCoordinator.current_cancel,
      Function.update_of_ne (hne (by rw [ListenCall.holds, pc]))]
  | register pc reg =>
    rw [setBackend_backend, ListenerCoordinator.current_register reg,
      Function.update_of_ne (hne (by rw [ListenCall.holds, pc]))]
  | unregister pc =>
    exact ListenerCoordinator.current_unregister_of_ne (hne (by rw [ListenCall.holds, pc]))
  | timer | interruptWait => rw [cancelFuture_backend]
  | wake => rw [cleanupListen_backend, failWaiter_backend]
  | callback => exact congrArg (C.current · k) cleanupListen_backend
  | _ => rfl

/-- Without the chat lock, a call of `listen` disturbs nothing it protects. -/
theorem ListenCall.Step.undisturbed (h : call.Step c m e a m' pc) (hc : call.holds ≠ some chat) :
    m.Undisturbed m' chat := by
  have hb : ∀ k : ListenerKey, k.chatId = chat → C.current m'.backend k = C.current m.backend k :=
    fun k hk => h.current_eq (hk ▸ hc)
  rcases h.shrinks with hs | ⟨_, t, hpc, _, rfl⟩
  · exact hs.undisturbed hb
  · refine fun k hk => ⟨hb k hk, fun σ hn => ?_⟩
    rw [setListener_apply, if_neg, hn]
    rintro ⟨_, rfl⟩
    rw [ListenCall.holds, hpc] at hc
    exact hc (congrArg some hk)

end Listen

section Resolve

variable {r : CallId} {call : ResolveCall C Update Metadata} {e : ResolveEvent}
  {pc : ResolvePc C.Token Update Metadata}

theorem ResolveCall.Step.shrinks (h : call.Step r m e a m' pc) : m.Shrinks m' := by
  cases h with
  | superseded | supersededInvalid | bypass | bypassStale | bypassInvalid => exact shrinks_cancel
  | bypassed => exact shrinks_setBackend
  | deliver _ pending => exact shrinks_complete pending nofun
  | _ => exact .refl

theorem ResolveCall.Step.moves (h : call.Step r m e a m' pc) :
    a.Moves call.holds (ResolveCall.holds { call with pc := pc }) := by
  cases h with
  | interrupt pc => rcases pc with pc | pc | ⟨_, pc⟩ <;> rw [ResolveCall.holds, pc] <;> rfl
  | _ pc => rw [ResolveCall.holds, pc]; simp [ResolveCall.holds, Mutex.Action.Moves]

omit [DecidableEq Sess] in
variable (call) in
/-- The keys a call of `resolve` looks at are sub-keys of the key of its update. -/
def ResolveCall.Scans : Prop :=
  match call.pc with
  | .scanning key subs => subs ⊆ key.subKeys
  | .checking key sub _ subs | .checked key sub _ subs _ => sub :: subs ⊆ key.subKeys
  | .bypassing key sub _ | .bypassed key sub => sub ∈ key.subKeys
  | _ => True

theorem ResolveCall.Step.scans (h : call.Step r m e a m' pc) (hs : call.Scans) :
    ResolveCall.Scans { call with pc := pc } := by
  cases h with
  | lock => exact List.Subset.refl _
  | scanNone pc | superseded pc => rw [Scans, pc] at hs; exact (List.cons_subset.1 hs).2
  | scan pc | check pc => rw [Scans, pc] at hs; exact hs
  | owned pc => rw [Scans, pc] at hs; exact hs List.mem_cons_self
  | bypass pc => rw [Scans, pc] at hs; exact hs
  | _ => trivial

/-- A call of `resolve` changes registrations under the chat lock only. -/
theorem ResolveCall.Step.current_eq (h : call.Step r m e a m' pc) (hs : call.Scans)
    (hk : call.holds ≠ some k.chatId) : C.current m'.backend k = C.current m.backend k := by
  cases h with
  | superseded | supersededInvalid | bypass | bypassStale | bypassInvalid => rw [cancel_backend]
  | @bypassed key sub pc =>
    have hne : k ≠ sub := by
      rintro rfl
      rw [Scans, pc] at hs
      rw [ResolveCall.holds, pc, ListenerKey.chatId_of_mem_subKeys hs] at hk
      exact hk rfl
    rw [setBackend_backend, ListenerCoordinator.current_cancel, Function.update_of_ne hne]
  | _ => rfl

end Resolve

section Cancel

variable {call : CancelCall C Update} {e : CancelEvent} {pc : CancelPc Update}

theorem CancelCall.Step.shrinks (h : call.Step m e a m' pc) : m.Shrinks m' := by
  cases h with
  | stale | invalid | onlyLocal | proceed => exact shrinks_cancel
  | coordinator => exact shrinks_setBackend
  | _ => exact .refl

theorem CancelCall.Step.moves (h : call.Step m e a m' pc) :
    a.Moves call.holds (CancelCall.holds { call with pc := pc }) := by
  cases h with
  | _ pc => rw [CancelCall.holds, pc]; simp [CancelCall.holds, Mutex.Action.Moves]

/-- A call of `cancel` changes the registration of its key only, under the chat lock. -/
theorem CancelCall.Step.current_eq (h : call.Step m e a m' pc)
    (hk : call.holds ≠ some k.chatId) : C.current m'.backend k = C.current m.backend k := by
  cases h with
  | stale | invalid | onlyLocal | proceed => rw [cancel_backend]
  | coordinator pc =>
    have hne : k ≠ call.key := by
      rintro rfl
      exact hk (by rw [CancelCall.holds, pc])
    rw [setBackend_backend, ListenerCoordinator.current_cancel, Function.update_of_ne hne]
  | _ => rfl

end Cancel

end Steps

/-! ### The steps of the system -/

/-- The call whose step it is. -/
def Label.actor : Label C Update Metadata → Option Owner
  | .startListen c .. | .listen c _ => some (.listen c)
  | .startResolve r .. | .resolve r _ => some (.resolve r)
  | .startCancel x .. | .signal x .. | .cancel x _ => some (.cancel x)
  | .stop _ => none

namespace State

/-- The chat lock a call holds. -/
def holds (s : State C Update Metadata) : Owner → Option ℤ
  | .listen c => (s.listens c).bind ListenCall.holds
  | .resolve r => (s.resolves r).bind ResolveCall.holds
  | .cancel x => (s.cancels x).bind CancelCall.holds

/-- A call stays where it is. -/
def Same (s s' : State C Update Metadata) : Owner → Prop
  | .listen c => s'.listens c = s.listens c
  | .resolve r => s'.resolves r = s.resolves r
  | .cancel x => s'.cancels x = s.cancels x

theorem Same.holds_eq {s s' : State C Update Metadata} {o : Owner} (h : s.Same s' o) :
    s'.holds o = s.holds o := by
  cases o with
  | listen c => rw [holds, holds, show s'.listens c = s.listens c from h]
  | resolve r => rw [holds, holds, show s'.resolves r = s.resolves r from h]
  | cancel x => rw [holds, holds, show s'.cancels x = s.cancels x from h]

end State

variable [DecidableEq Sess] {s s' : State C Update Metadata} {l : Label C Update Metadata}

/-- A step leaves all calls but one where they are. -/
theorem Step.same_of_ne {o : Owner} (h : Step s l s') (ho : l.actor ≠ some o) : s.Same s' o := by
  cases h with
  | startListen | listen | startResolve | resolve | startCancel | signal | cancel =>
    cases o with
    | listen c =>
      first
      | exact rfl
      | exact Function.update_of_ne (fun h => ho (by rw [Label.actor, h])) ..
    | resolve r =>
      first
      | exact rfl
      | exact Function.update_of_ne (fun h => ho (by rw [Label.actor, h])) ..
    | cancel x =>
      first
      | exact rfl
      | exact Function.update_of_ne (fun h => ho (by rw [Label.actor, h])) ..
  | stop => cases o <;> rfl

/-- Where a call of `listen` comes from: it was there, it starts, or it takes a step. -/
theorem Step.listen_cases {c : CallId} {call' : ListenCall C Update Metadata} (h : Step s l s')
    (hc : s'.listens c = some call') :
    s.listens c = some call' ∧ l.actor ≠ some (.listen c) ∨
    (s.listens c = none ∧ s'.shared = s.shared ∧ ∃ σ key metadata policy,
      l = .startListen c σ key metadata policy ∧ call' = ⟨σ, key, metadata, policy, .waitLock⟩) ∨
    ∃ call e a pc, s.listens c = some call ∧ l = .listen c e ∧ a.Enabled s.locked ∧
      call.Step c s.shared e a s'.shared pc ∧ call' = { call with pc := pc } := by
  by_cases hl : l.actor = some (.listen c)
  · cases h with
    | startListen new =>
      cases hl
      simp only [Function.update_self, Option.some.injEq] at hc
      subst hc
      exact .inr (.inl ⟨new, rfl, _, _, _, _, rfl, rfl⟩)
    | listen running step enabled =>
      cases hl
      simp only [Function.update_self, Option.some.injEq] at hc
      subst hc
      exact .inr (.inr ⟨_, _, _, _, running, rfl, enabled, step, rfl⟩)
    | _ => exact absurd hl nofun
  · exact .inl ⟨(h.same_of_ne hl).symm.trans hc, hl⟩

theorem Step.resolve_cases {r : CallId} {call' : ResolveCall C Update Metadata} (h : Step s l s')
    (hr : s'.resolves r = some call') :
    s.resolves r = some call' ∧ l.actor ≠ some (.resolve r) ∨
    (s.resolves r = none ∧ s'.shared = s.shared ∧ ∃ σ update,
      l = .startResolve r σ update ∧ call' = ⟨σ, update, .listenable⟩) ∨
    ∃ call e a pc, s.resolves r = some call ∧ l = .resolve r e ∧ a.Enabled s.locked ∧
      call.Step r s.shared e a s'.shared pc ∧ call' = { call with pc := pc } := by
  by_cases hl : l.actor = some (.resolve r)
  · cases h with
    | startResolve new =>
      cases hl
      simp only [Function.update_self, Option.some.injEq] at hr
      subst hr
      exact .inr (.inl ⟨new, rfl, _, _, rfl, rfl⟩)
    | resolve running step enabled =>
      cases hl
      simp only [Function.update_self, Option.some.injEq] at hr
      subst hr
      exact .inr (.inr ⟨_, _, _, _, running, rfl, enabled, step, rfl⟩)
    | _ => exact absurd hl nofun
  · exact .inl ⟨(h.same_of_ne hl).symm.trans hr, hl⟩

theorem Step.cancel_cases {x : CallId} {call' : CancelCall C Update} (h : Step s l s')
    (hx : s'.cancels x = some call') :
    s.cancels x = some call' ∧ l.actor ≠ some (.cancel x) ∨
    (s.cancels x = none ∧ s'.shared = s.shared ∧ call'.pc = .waitLock ∧
      (call'.isSignal = true → ∃ t, C.Signalled s.shared.backend call'.key t ∧
        call' = ⟨call'.session, call'.key, false, false, some t, true, .waitLock⟩)) ∨
    ∃ call e a pc, s.cancels x = some call ∧ l = .cancel x e ∧ a.Enabled s.locked ∧
      call.Step s.shared e a s'.shared pc ∧ call' = { call with pc := pc } := by
  by_cases hl : l.actor = some (.cancel x)
  · cases h with
    | startCancel new =>
      cases hl
      simp only [Function.update_self, Option.some.injEq] at hx
      subst hx
      exact .inr (.inl ⟨new, rfl, rfl, nofun⟩)
    | signal new published =>
      cases hl
      simp only [Function.update_self, Option.some.injEq] at hx
      subst hx
      exact .inr (.inl ⟨new, rfl, rfl, fun _ => ⟨_, published, rfl⟩⟩)
    | cancel running step enabled =>
      cases hl
      simp only [Function.update_self, Option.some.injEq] at hx
      subst hx
      exact .inr (.inr ⟨_, _, _, _, running, rfl, enabled, step, rfl⟩)
    | _ => exact absurd hl nofun
  · exact .inl ⟨(h.same_of_ne hl).symm.trans hx, hl⟩

/-- A step makes the memory shrink, or is a call of `listen` storing its listener. -/
theorem Step.shrinks (h : Step s l s') :
    s.shared.Shrinks s'.shared ∨ ∃ c call t, l = .listen c .store ∧ s.listens c = some call ∧
      call.pc = .registered t ∧ s'.listens c = some { call with pc := .waiting t .none } ∧
      s'.shared = s.shared.setListener call.session call.key
        (some ⟨call.key, call.metadata, c, some t⟩) := by
  cases h with
  | listen running step =>
    rcases step.shrinks with hs | ⟨rfl, t, hpc, rfl, hm⟩
    · exact .inl hs
    · exact .inr ⟨_, _, t, rfl, running, hpc, Function.update_self .., hm⟩
  | resolve _ step => exact .inl step.shrinks
  | cancel _ step => exact .inl step.shrinks
  | stop => exact .inl Shared.shrinks_setBackend
  | _ => exact .inl .refl

/-! ### The chat locks -/

theorem Step.holds_eq {o : Owner} (h : Step s l s') (ho : l.actor = some o) :
    s'.holds = Function.update s.holds o (s'.holds o) := by
  funext o'
  by_cases hoo : o' = o
  · subst hoo
    rw [Function.update_self]
  · rw [Function.update_of_ne hoo,
      (h.same_of_ne fun h => hoo (by simpa [ho] using h.symm)).holds_eq]

/-- The chat locks that are taken are those the calls hold, each by one call. -/
theorem Step.guards (h : Step s l s') (hg : Mutex.Guards s.locked s.holds) :
    Mutex.Guards s'.locked s'.holds := by
  -- The step of an owner is an action on the lock it holds, or is to hold.
  have hact {o : Owner} {a : Mutex.Action ℤ} (ho : l.actor = some o) (ha : a.Enabled s.locked)
      (hl : s'.locked = a.apply s.locked) (hm : a.Moves (s.holds o) (s'.holds o)) :
      Mutex.Guards s'.locked s'.holds := by
    rw [h.holds_eq ho, hl]
    exact hg.act ha hm
  cases h with
  | startListen new =>
    refine hact (a := .keep) rfl trivial rfl ?_
    simp [State.holds, new, ListenCall.holds, Mutex.Action.Moves]
  | listen running step enabled =>
    refine hact rfl enabled rfl ?_
    simpa [State.holds, running] using step.moves
  | startResolve new =>
    refine hact (a := .keep) rfl trivial rfl ?_
    simp [State.holds, new, ResolveCall.holds, Mutex.Action.Moves]
  | resolve running step enabled =>
    refine hact rfl enabled rfl ?_
    simpa [State.holds, running] using step.moves
  | startCancel new | signal new =>
    refine hact (a := .keep) rfl trivial rfl ?_
    simp [State.holds, new, CancelCall.holds, Mutex.Action.Moves]
  | cancel running step enabled =>
    refine hact rfl enabled rfl ?_
    simpa [State.holds, running] using step.moves
  | stop => exact hg

variable {P : State C Update Metadata → Label C Update Metadata → Prop}

/-- In a reachable state, every chat lock is held by one call at most. -/
theorem guards_of_reachable (h : (listenerLts C Update Metadata).ReachableUnder P s) :
    Mutex.Guards s.locked s.holds := by
  refine h.invariant (I := fun s => Mutex.Guards s.locked s.holds) ?_
    fun _ _ _ hg _ hst => Step.guards hst hg
  rintro _ rfl
  exact .free (fun _ => rfl) fun o => by cases o <;> rfl

/-- In a reachable state, the calls of `resolve` look at sub-keys of their key. -/
theorem scans_of_reachable (h : (listenerLts C Update Metadata).ReachableUnder P s) :
    ∀ r call, s.resolves r = some call → call.Scans := by
  refine h.invariant (I := fun s => ∀ r call, s.resolves r = some call → call.Scans)
    (by rintro _ rfl _ _ hr; exact absurd hr nofun) ?_
  intro s l s' ih _ hst r call' hr
  rcases hst.resolve_cases hr with
    ⟨hr, _⟩ | ⟨_, _, σ, update, _, rfl⟩ | ⟨call, e, a, pc, hr₀, _, _, hs, rfl⟩
  · exact ih r call' hr
  · trivial
  · exact hs.scans (ih r call hr₀)

/-- A step leaves what a chat lock protects undisturbed, unless it is that of a
    call holding the lock, or that of a coordinator that stops. -/
theorem Step.undisturbed {chat : ℤ} (h : Step s l s')
    (hs : ∀ r call, s.resolves r = some call → call.Scans) (hstop : ∀ σ, l ≠ .stop σ)
    (hh : ∀ o, l.actor = some o → s.holds o ≠ some chat) : s.shared.Undisturbed s'.shared chat := by
  cases h with
  | listen running step =>
    exact step.undisturbed (by simpa [State.holds, running] using hh _ rfl)
  | resolve running step =>
    refine step.shrinks.undisturbed fun k hk => step.current_eq (hs _ _ running) ?_
    simpa [State.holds, running, hk] using hh _ rfl
  | cancel running step =>
    refine step.shrinks.undisturbed fun k hk => step.current_eq ?_
    simpa [State.holds, running, hk] using hh _ rfl
  | stop => exact absurd rfl (hstop _)
  | _ => exact Shared.Shrinks.refl.undisturbed fun _ _ => rfl

end Pyroflow
