import Pyroflow.Listener.Invariant

/-!
# Listeners and their registrations

What holds of the registrations in the states reached while no coordinator stops
(`NoStop`):

* `protected_of_reachable`: what a call read off the registry, or did to it,
  still holds as long as it keeps the chat lock;
* `issued_of_reachable`: the tokens of the calls were issued, each to one call;
* `retired_of_reachable`: the token a cancel signal names has left the registry
  for good.

A registration is made by a call of `listen`, and withdrawn, sooner or later, for
good (`Step.current_cases`, `Step.view_le`).
-/

namespace Pyroflow

variable {Sess : Type} {C : ListenerCoordinator Sess} {Update Metadata : Type}

/-- The condition that no coordinator stops. -/
def NoStop (_ : State C Update Metadata) (l : Label C Update Metadata) : Prop := ∀ σ, l ≠ .stop σ

/-! ### What the chat locks protect -/

section Protected

variable (m : Shared C Update Metadata)

/-- What a call of `listen` relies on in its critical section. -/
def ListenCall.Protected (call : ListenCall C Update Metadata) : Prop :=
  match call.pc with
  | .looked registered => (C.current m.backend call.key).isSome = registered
  | .replacing => m.listeners call.session call.key = none
  | .registering =>
    C.current m.backend call.key = none ∧ m.listeners call.session call.key = none
  | .registered t =>
    C.current m.backend call.key = some t ∧ m.listeners call.session call.key = none
  | _ => True

/-- What a call of `resolve` relies on in its critical section. -/
def ResolveCall.Protected (call : ResolveCall C Update Metadata) : Prop :=
  match call.pc with
  | .checked _ sub listener _ registered =>
    registered = true ↔ C.current m.backend sub = listener.coordinatorId
  | .bypassing _ sub listener => C.current m.backend sub = listener.coordinatorId
  | .bypassed _ sub => m.listeners call.session sub = none
  | _ => True

/-- What a call of `cancel` relies on in its critical section. -/
def CancelCall.Protected (call : CancelCall C Update) : Prop :=
  match call.pc with
  | .coordinator =>
    call.cancelCoordinator = true ∧ m.listeners call.session call.key = none
  | _ => True

end Protected

/-- What the call of an owner relies on. -/
def State.Protected (s : State C Update Metadata) : Owner → Prop
  | .listen c => ∀ call, s.listens c = some call → call.Protected s.shared
  | .resolve r => ∀ call, s.resolves r = some call → call.Protected s.shared
  | .cancel x => ∀ call, s.cancels x = some call → call.Protected s.shared

section Stable

variable {m m' : Shared C Update Metadata}

theorem ListenCall.Protected.looked {call : ListenCall C Update Metadata} (h : call.Protected m)
    {b : Bool} (pc : call.pc = .looked b) : (C.current m.backend call.key).isSome = b := by
  rwa [Protected, pc] at h

theorem ListenCall.Protected.registering {call : ListenCall C Update Metadata}
    (h : call.Protected m) (pc : call.pc = .registering) :
    C.current m.backend call.key = none ∧ m.listeners call.session call.key = none := by
  rwa [Protected, pc] at h

theorem ListenCall.Protected.registered {call : ListenCall C Update Metadata}
    (h : call.Protected m) {t : C.Token} (pc : call.pc = .registered t) :
    C.current m.backend call.key = some t ∧ m.listeners call.session call.key = none := by
  rwa [Protected, pc] at h

/-- `register` does not fail in the critical section of `listen`. -/
theorem ListenCall.Protected.not_registerFails {call : ListenCall C Update Metadata}
    (h : call.Protected m) (pc : call.pc = .registering) :
    ¬C.RegisterFails m.backend call.session call.key :=
  fun hf => C.register_taken hf (h.registering pc).1

theorem ResolveCall.Protected.bypassing {call : ResolveCall C Update Metadata}
    (h : call.Protected m) {key sub : ListenerKey} {listener : ListenerModel C.Token Metadata}
    (pc : call.pc = .bypassing key sub listener) :
    C.current m.backend sub = listener.coordinatorId := by
  rwa [Protected, pc] at h

theorem CancelCall.Protected.coordinator {call : CancelCall C Update} (h : call.Protected m)
    (pc : call.pc = .coordinator) :
    call.cancelCoordinator = true ∧ m.listeners call.session call.key = none := by
  rwa [Protected, pc] at h

theorem ListenCall.Protected.stable {call : ListenCall C Update Metadata} (h : call.Protected m)
    (hu : ∀ chat, call.holds = some chat → m.Undisturbed m' chat) : call.Protected m' := by
  obtain ⟨σ, k, _, _, pc⟩ := call
  cases pc with
  | looked => exact (congrArg Option.isSome (hu _ rfl k rfl).1).trans h
  | replacing => exact (hu _ rfl k rfl).2 σ h
  | registering | registered =>
    obtain ⟨hk, hn⟩ := hu _ rfl k rfl
    exact ⟨hk.trans h.1, hn σ h.2⟩
  | _ => trivial

theorem ResolveCall.Protected.stable {call : ResolveCall C Update Metadata} (h : call.Protected m)
    (hs : call.Scans) (hu : ∀ chat, call.holds = some chat → m.Undisturbed m' chat) :
    call.Protected m' := by
  obtain ⟨σ, _, pc⟩ := call
  cases pc with
  | checked key sub =>
    have hk := (hu _ rfl sub (ListenerKey.chatId_of_mem_subKeys (hs List.mem_cons_self))).1
    simp only [Protected] at h ⊢
    rw [hk, h]
  | bypassing key sub => exact (hu _ rfl sub (ListenerKey.chatId_of_mem_subKeys hs)).1.trans h
  | bypassed key sub => exact (hu _ rfl sub (ListenerKey.chatId_of_mem_subKeys hs)).2 σ h
  | _ => trivial

theorem CancelCall.Protected.stable {call : CancelCall C Update} (h : call.Protected m)
    (hu : ∀ chat, call.holds = some chat → m.Undisturbed m' chat) : call.Protected m' := by
  obtain ⟨σ, k, _, _, _, _, pc⟩ := call
  cases pc with
  | coordinator => exact ⟨h.1, (hu _ rfl k rfl).2 σ h.2⟩
  | _ => trivial

end Stable

variable [DecidableEq Sess] {m m' : Shared C Update Metadata} {a : Mutex.Action ℤ}
  {s s' : State C Update Metadata} {l : Label C Update Metadata}

theorem ListenCall.Step.protected {c : CallId} {call : ListenCall C Update Metadata}
    {e : ListenEvent} {pc : ListenPc C.Token Update} (h : call.Step c m e a m' pc)
    (hp : call.Protected m) : ListenCall.Protected m' { call with pc := pc } := by
  cases h with
  | lookup => exact ListenerCoordinator.registered_none_eq.symm
  | replace _ _ head => exact Shared.cancel_proceed head
  | proceed pc free => exact ⟨by simpa using hp.looked pc, free⟩
  | replaced pc =>
    rw [Protected, pc] at hp
    refine ⟨?_, hp⟩
    rw [Shared.setBackend_backend, ListenerCoordinator.current_cancel]
    exact Function.update_self ..
  | register pc reg =>
    refine ⟨?_, (hp.registering pc).2⟩
    rw [Shared.setBackend_backend, ListenerCoordinator.current_register reg]
    exact Function.update_self ..
  | callback =>
    exact hp.stable fun _ _ => Shared.shrinks_callback.undisturbed fun _ _ =>
      congrArg (C.current · _) Shared.cleanupListen_backend
  | _ => trivial

theorem ResolveCall.Step.protected {r : CallId} {call : ResolveCall C Update Metadata}
    {e : ResolveEvent} {pc : ResolvePc C.Token Update Metadata} (h : call.Step r m e a m' pc)
    (hp : call.Protected m) (ht : ∀ k listener, call.candidate = some (k, listener) →
      listener.coordinatorId ≠ none) : ResolveCall.Protected m' { call with pc := pc } := by
  cases h with
  | @check key sub listener subs pc =>
    obtain ⟨t, hl⟩ := Option.ne_none_iff_exists'.1
      (ht sub listener (by rw [ResolveCall.candidate, pc]))
    simp only [Protected, hl]
    exact ListenerCoordinator.registered_some_iff
  | owned pc =>
    rw [Protected, pc] at hp
    exact hp.1 rfl
  | bypass _ head => exact Shared.cancel_proceed head
  | _ => trivial

theorem CancelCall.Step.protected {call : CancelCall C Update} {e : CancelEvent}
    {pc : CancelPc Update} (h : call.Step m e a m' pc) :
    CancelCall.Protected m' { call with pc := pc } := by
  cases h with
  | proceed _ both head => exact ⟨both, Shared.cancel_proceed head⟩
  | _ => trivial

/-- A step keeps what the calls rely on, unless a coordinator stops. -/
theorem Step.protected (h : Step s l s') (hstop : NoStop s l)
    (hr : (listenerLts C Update Metadata).ReachableUnder NoStop s) (hp : ∀ o, s.Protected o)
    (o : Owner) : s'.Protected o := by
  -- Another call does not hold the lock this one holds.
  have hu {chat : ℤ} (ho : l.actor ≠ some o) (hc : s.holds o = some chat) :
      s.shared.Undisturbed s'.shared chat := by
    refine h.undisturbed (scans_of_reachable hr) hstop fun o' ho' hc' => ho ?_
    rw [ho', (guards_of_reachable hr).unique hc' hc]
  cases o with
  | listen c =>
    intro call' hc'
    rcases h.listen_cases hc' with
      ⟨hc, ho⟩ | ⟨_, _, _, _, _, _, _, rfl⟩ | ⟨call, e, a, pc, hc, _, _, hst, rfl⟩
    · exact (hp (.listen c) call' hc).stable fun chat hh =>
        hu ho (by rw [State.holds, hc]; exact hh)
    · trivial
    · exact hst.protected (hp (.listen c) call hc)
  | resolve r =>
    intro call' hc'
    rcases h.resolve_cases hc' with
      ⟨hc, ho⟩ | ⟨_, _, _, _, _, rfl⟩ | ⟨call, e, a, pc, hc, _, _, hst, rfl⟩
    · exact (hp (.resolve r) call' hc).stable (scans_of_reachable hr r call' hc) fun chat hh =>
        hu ho (by rw [State.holds, hc]; exact hh)
    · trivial
    · refine hst.protected (hp (.resolve r) call hc) fun k listener hk => ?_
      obtain ⟨_, t, _, _, _, _, hl⟩ := candidates_of_reachable hr r call k listener hc hk
      rw [hl]
      exact Option.some_ne_none t
  | cancel x =>
    intro call' hc'
    rcases h.cancel_cases hc' with
      ⟨hc, ho⟩ | ⟨_, _, hpc, _⟩ | ⟨call, e, a, pc, hc, _, _, hst, rfl⟩
    · exact (hp (.cancel x) call' hc).stable fun chat hh =>
        hu ho (by rw [State.holds, hc]; exact hh)
    · rw [CancelCall.Protected, hpc]
      trivial
    · exact hst.protected

/-- In a state reached while no coordinator stops, what the calls rely on holds. -/
theorem protected_of_reachable (h : (listenerLts C Update Metadata).ReachableUnder NoStop s)
    (o : Owner) :
    s.Protected o := by
  refine h.invariant_of_reachable (I := fun s => ∀ o, s.Protected o) ?_
    (fun _ _ _ hr ih hp hst => Step.protected hst hp hr ih) o
  rintro _ rfl o
  cases o <;> exact fun _ hc => absurd hc nofun

/-! ### Tokens -/

section Listen

variable {c : CallId} {call : ListenCall C Update Metadata} {e : ListenEvent}
  {pc : ListenPc C.Token Update}

/-- A call of `listen` obtains its token by registering, and keeps it; its other
    steps withdraw registrations of its key, if anything. -/
theorem ListenCall.Step.registry (h : call.Step c m e a m' pc) :
    ListenCall.token { call with pc := pc } = call.token ∧ (m'.backend = m.backend ∨
      call.pc = .replacing ∧ m'.backend = (C.cancel m.backend call.session call.key).2 ∨
      ∃ t o, call.pc = .unregistering t o ∧
        m'.backend = (C.unregister m.backend call.session call.key (some t)).2) ∨
    e = .register ∧ call.pc = .registering ∧ ∃ t, pc = .registered t ∧
      C.Registers m.backend call.session call.key t m'.backend := by
  cases h with
  | register pc reg => exact .inr ⟨rfl, pc, _, rfl, reg⟩
  | replace pc | replaceInvalid pc =>
    exact .inl ⟨by rw [token, token, pc], .inl Shared.cancel_backend⟩
  | replaced pc => exact .inl ⟨by rw [token, token, pc], .inr (.inl ⟨pc, rfl⟩)⟩
  | unregister pc => exact .inl ⟨by rw [token, token, pc], .inr (.inr ⟨_, _, pc, rfl⟩)⟩
  | timer pc | interruptWait pc =>
    exact .inl ⟨by rw [token, token, pc], .inl Shared.cancelFuture_backend⟩
  | wake pc =>
    exact .inl ⟨by rw [token, token, pc],
      .inl (Shared.cleanupListen_backend.trans Shared.failWaiter_backend)⟩
  | callback => exact .inl ⟨rfl, .inl Shared.cleanupListen_backend⟩
  | _ pc => exact .inl ⟨by rw [token, token, pc], .inl rfl⟩

end Listen

theorem ResolveCall.Step.backend {r : CallId} {call : ResolveCall C Update Metadata}
    {e : ResolveEvent} {pc : ResolvePc C.Token Update Metadata} (h : call.Step r m e a m' pc) :
    m'.backend = m.backend ∨ ∃ key sub, call.pc = .bypassed key sub ∧
      m'.backend = (C.cancel m.backend call.session sub).2 := by
  cases h with
  | superseded | supersededInvalid | bypass | bypassStale | bypassInvalid =>
    exact .inl Shared.cancel_backend
  | bypassed pc => exact .inr ⟨_, _, pc, rfl⟩
  | _ => exact .inl rfl

theorem CancelCall.Step.backend {call : CancelCall C Update} {e : CancelEvent}
    {pc : CancelPc Update} (h : call.Step m e a m' pc) :
    m'.backend = m.backend ∨ call.pc = .coordinator ∧
      m'.backend = (C.cancel m.backend call.session call.key).2 := by
  cases h with
  | stale | invalid | onlyLocal | proceed => exact .inl Shared.cancel_backend
  | coordinator pc => exact .inr ⟨pc, rfl⟩
  | _ => exact .inl rfl

omit [DecidableEq Sess] in
variable (s) in
/-- Some call is about to cancel the key with the coordinator, for the session,
    having cancelled it locally. -/
inductive State.Revokes (σ : Sess) (k : ListenerKey) : Prop
  | listen {c call} (hc : s.listens c = some call) (pc : call.pc = .replacing)
      (hσ : call.session = σ) (hk : call.key = k)
  | resolve {r call key} (hr : s.resolves r = some call) (pc : call.pc = .bypassed key k)
      (hσ : call.session = σ)
  | cancel {x call} (hx : s.cancels x = some call) (pc : call.pc = .coordinator)
      (hσ : call.session = σ) (hk : call.key = k)

omit [DecidableEq Sess] in
/-- No listener is left under a key that is about to be cancelled. -/
theorem State.Revokes.vacant {σ : Sess} {k : ListenerKey} (h : s.Revokes σ k)
    (hp : ∀ o, s.Protected o) : s.shared.listeners σ k = none := by
  rcases h with ⟨hc, pc, rfl, rfl⟩ | ⟨hr, pc, rfl⟩ | ⟨hx, pc, rfl, rfl⟩
  · have := hp (.listen _) _ hc
    rwa [ListenCall.Protected, pc] at this
  · have := hp (.resolve _) _ hr
    rwa [ResolveCall.Protected, pc] at this
  · exact ((hp (.cancel _) _ hx).coordinator pc).2

/-- The operations of a step on the backend. -/
theorem Step.backend_cases (h : Step s l s') :
    s'.shared.backend = s.shared.backend ∨
    (∃ σ k, s.Revokes σ k ∧ s'.shared.backend = (C.cancel s.shared.backend σ k).2) ∨
    (∃ c call t o, s.listens c = some call ∧ call.pc = .unregistering t o ∧
      s'.shared.backend = (C.unregister s.shared.backend call.session call.key (some t)).2) ∨
    (∃ σ, l = .stop σ ∧ s'.shared.backend = C.stop s.shared.backend σ) ∨
    ∃ c call t, l = .listen c .register ∧ s.listens c = some call ∧ call.pc = .registering ∧
      s'.listens c = some { call with pc := .registered t } ∧
      C.Registers s.shared.backend call.session call.key t s'.shared.backend := by
  cases h with
  | listen running step =>
    rcases step.registry with ⟨_, hb | ⟨pc, hb⟩ | ⟨t, o, pc, hb⟩⟩ | ⟨rfl, hpc, t, rfl, reg⟩
    · exact .inl hb
    · exact .inr (.inl ⟨_, _, .listen running pc rfl rfl, hb⟩)
    · exact .inr (.inr (.inl ⟨_, _, t, o, running, pc, hb⟩))
    · exact .inr (.inr (.inr (.inr ⟨_, _, t, rfl, running, hpc, Function.update_self .., reg⟩)))
  | resolve running step =>
    rcases step.backend with hb | ⟨key, sub, pc, hb⟩
    · exact .inl hb
    · exact .inr (.inl ⟨_, _, .resolve running pc rfl, hb⟩)
  | cancel running step =>
    rcases step.backend with hb | ⟨pc, hb⟩
    · exact .inl hb
    · exact .inr (.inl ⟨_, _, .cancel running pc rfl rfl, hb⟩)
  | stop => exact .inr (.inr (.inr (.inl ⟨_, rfl, rfl⟩)))
  | _ => exact .inl rfl

/-- The registry goes on, unless a coordinator stops. -/
theorem Step.view_le (h : Step s l s') (hstop : NoStop s l) :
    C.view s.shared.backend ≤ C.view s'.shared.backend := by
  rcases h.backend_cases with hb | ⟨σ, k, _, hb⟩ | ⟨c, call, t, o, _, _, hb⟩ | ⟨σ, hl, _⟩ |
    ⟨_, _, _, _, _, _, _, reg⟩
  · rw [hb]
  · exact hb ▸ ListenerCoordinator.view_le_cancel
  · exact hb ▸ ListenerCoordinator.view_le_unregister
  · exact absurd hl (hstop σ)
  · exact ListenerCoordinator.view_le_register reg

/-- A registration was there, or a call of `listen` has just made it. -/
theorem Step.current_cases (h : Step s l s') {k : ListenerKey} {t : C.Token}
    (ht : C.current s'.shared.backend k = some t) :
    C.current s.shared.backend k = some t ∨
    ∃ c call, l = .listen c .register ∧ s.listens c = some call ∧ call.pc = .registering ∧
      call.key = k ∧ s'.listens c = some { call with pc := .registered t } ∧
      C.Registers s.shared.backend call.session k t s'.shared.backend := by
  rcases h.backend_cases with hb | ⟨σ, k', _, hb⟩ | ⟨_, call, t', o, _, _, hb⟩ | ⟨σ, _, hb⟩ |
    ⟨c, call, t', hl, hc, hpc, hc', reg⟩
  · exact .inl (hb ▸ ht)
  · rw [hb, ListenerCoordinator.current_cancel] at ht
    by_cases hk : k = k'
    · subst hk
      rw [Function.update_self] at ht
      exact absurd ht nofun
    · exact .inl (by rwa [Function.update_of_ne hk] at ht)
  · rw [hb] at ht
    by_cases hk : k = call.key
    · subst hk
      by_cases htt : t = t'
      · exact absurd (htt ▸ ht) ListenerCoordinator.current_unregister_ne
      · exact .inl ((ListenerCoordinator.current_unregister_of_ne_token htt).1 ht)
    · exact .inl (by rwa [ListenerCoordinator.current_unregister_of_ne hk] at ht)
  · rw [hb] at ht
    exact .inl (C.stop_view _ _ _ _ ht)
  · by_cases hk : k = call.key
    · subst hk
      rw [ListenerCoordinator.current_register reg, Function.update_self, Option.some.injEq] at ht
      subst ht
      exact .inr ⟨c, call, hl, hc, hpc, rfl, hc', reg⟩
    · rw [ListenerCoordinator.current_register reg, Function.update_of_ne hk] at ht
      exact .inl ht

omit [DecidableEq Sess] in
variable (s) in
/-- The tokens of the calls were issued, each to one call. -/
structure State.Issued : Prop where
  mem : ∀ c call t, s.listens c = some call → call.token = some t →
    t ∈ (C.view s.shared.backend).issued
  inj : ∀ c c' call call' t, s.listens c = some call → s.listens c' = some call' →
    call.token = some t → call'.token = some t → c = c'

/-- Where the token of a call comes from: the call had it, or it has just registered. -/
theorem Step.token_cases (h : Step s l s') {c : CallId} {call' : ListenCall C Update Metadata}
    {t : C.Token} (hc' : s'.listens c = some call') (ht : call'.token = some t) :
    (∃ call, s.listens c = some call ∧ call.token = some t ∧ call.key = call'.key) ∨
    ∃ call, l = .listen c .register ∧ s.listens c = some call ∧ call.pc = .registering ∧
      call' = { call with pc := .registered t } ∧
      C.Registers s.shared.backend call.session call.key t s'.shared.backend := by
  rcases h.listen_cases hc' with
    ⟨hc, _⟩ | ⟨_, _, _, _, _, _, _, rfl⟩ | ⟨call, e, a, pc, hc, rfl, _, hst, rfl⟩
  · exact .inl ⟨call', hc, ht, rfl⟩
  · exact absurd ht nofun
  · rcases hst.registry with ⟨htok, _⟩ | ⟨rfl, hpc, t', rfl, reg⟩
    · exact .inl ⟨call, hc, htok ▸ ht, rfl⟩
    · obtain rfl := Option.some.inj ht
      exact .inr ⟨call, rfl, hc, hpc, rfl, reg⟩

/-- A call keeps its token, and its key. -/
theorem Step.token_stays (h : Step s l s') {c : CallId} {call : ListenCall C Update Metadata}
    {t : C.Token} (hc : s.listens c = some call) (ht : call.token = some t) :
    ∃ call', s'.listens c = some call' ∧ call'.token = some t ∧ call'.key = call.key := by
  rcases h.listen_next hc with ⟨hc', _⟩ | ⟨e, a, pc, _, _, hst, hc'⟩
  · exact ⟨call, hc', ht, rfl⟩
  · rcases hst.registry with ⟨htok, _⟩ | ⟨_, hpc, _⟩
    · exact ⟨_, hc', htok.trans ht, rfl⟩
    · rw [ListenCall.token, hpc] at ht
      exact absurd ht nofun

theorem Step.issued (h : Step s l s') (hstop : NoStop s l) (hi : s.Issued) : s'.Issued where
  mem c call' t hc' ht := by
    rcases h.token_cases hc' ht with ⟨call, hc, ht, _⟩ | ⟨call, _, _, _, _, reg⟩
    · exact (h.view_le hstop).1 (hi.mem c call t hc ht)
    · obtain ⟨hn, hv⟩ := C.register_view reg
      rw [hv]
      exact Set.mem_insert _ _
  inj c₁ c₂ call₁ call₂ t hc₁ hc₂ ht₁ ht₂ := by
    rcases h.token_cases hc₁ ht₁ with ⟨call₁', hc₁', ht₁', _⟩ | ⟨_, hl₁, _, _, _, reg₁⟩
    · rcases h.token_cases hc₂ ht₂ with ⟨call₂', hc₂', ht₂', _⟩ | ⟨_, _, _, _, _, reg₂⟩
      · exact hi.inj c₁ c₂ _ _ t hc₁' hc₂' ht₁' ht₂'
      · -- The token just issued is nobody else's.
        exact absurd (hi.mem _ _ t hc₁' ht₁') (C.register_view reg₂).1
    · rcases h.token_cases hc₂ ht₂ with ⟨call₂', hc₂', ht₂', _⟩ | ⟨_, hl₂, _⟩
      · exact absurd (hi.mem _ _ t hc₂' ht₂') (C.register_view reg₁).1
      · rw [hl₁] at hl₂
        cases hl₂
        rfl

/-- In a state reached while no coordinator stops, the tokens of the calls were
    issued, each to one call. -/
theorem issued_of_reachable (h : (listenerLts C Update Metadata).ReachableUnder NoStop s) :
    s.Issued := by
  refine h.invariant (I := State.Issued) ?_ fun _ _ _ ih hp hst => Step.issued hst hp ih
  rintro _ rfl
  exact ⟨fun _ _ _ hc => absurd hc nofun, fun _ _ _ _ _ hc => absurd hc nofun⟩

/-! ### Cancel signals -/

/-- In a state reached while no coordinator stops, a call applying a cancel signal
    names a token that was issued, and that no key holds any more. -/
theorem retired_of_reachable (h : (listenerLts C Update Metadata).ReachableUnder NoStop s) :
    ∀ x call, s.cancels x = some call → call.isSignal = true →
      call.cancelCoordinator = false ∧ call.isDuplicate = false ∧
        ∃ t, call.coordinatorId = some t ∧ (C.view s.shared.backend).Retired t := by
  refine h.invariant (I := fun s => ∀ x call, s.cancels x = some call → call.isSignal = true →
    call.cancelCoordinator = false ∧ call.isDuplicate = false ∧
      ∃ t, call.coordinatorId = some t ∧ (C.view s.shared.backend).Retired t)
    (by rintro _ rfl _ _ hx; exact absurd hx nofun) ?_
  intro s l s' ih hp hst x call' hx' hsig
  rcases hst.cancel_cases hx' with
    ⟨hx, _⟩ | ⟨_, _, _, hnew⟩ | ⟨call, e, a, pc, hx, _, _, _, rfl⟩
  · obtain ⟨hc, hd, t, ht, hret⟩ := ih x call' hx hsig
    exact ⟨hc, hd, t, ht, hret.mono (hst.view_le hp)⟩
  · obtain ⟨t, hpub, he⟩ := hnew hsig
    rw [he]
    exact ⟨rfl, rfl, t, rfl, (C.signalled_retired hpub).mono (hst.view_le hp)⟩
  · obtain ⟨hc, hd, t, ht, hret⟩ := ih x call hx hsig
    exact ⟨hc, hd, t, ht, hret.mono (hst.view_le hp)⟩

end Pyroflow
