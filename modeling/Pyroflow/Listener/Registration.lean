import Pyroflow.Coordinator.Memory
import Pyroflow.Coordinator.Redis
import Pyroflow.Listener.Registry
import Pyroflow.Listener.Runs
import Pyroflow.Listener.Window

/-!
# The local map and the registry

While no coordinator stops, a call that waits for its future has its listener in
the local map (`State.Kept`), where `resolve` and `cancel` find it.

With a single session, the converse link with the registry holds too: a listener
in the map is registered, with its own token (`State.InStep`), and `listen` finds
the two in step (`in_step`). With several sessions it fails: a session keeps a
listener that was taken over by another one until the cancel signal reaches it,
and should the other one end before, `listen` raises on it
(`replace_registers`, `replace_raises`). It does not if the signals for the listeners of
a key are applied, and their done-callbacks run, before the key is listened on again
(`replacesInSync_of_appliesFirst`).
-/

namespace Pyroflow

variable {Sess : Type} [DecidableEq Sess] {C : ListenerCoordinator Sess} {Update Metadata : Type}
  {m m' : Shared C Update Metadata} {a : Mutex.Action ℤ} {s s' : State C Update Metadata}
  {l : Label C Update Metadata}

/-! ### Waiting calls keep their listener -/

/-- A step of `listen` spares a listener whose future stays pending, unless it is
    that of the call, or is overwritten. -/
theorem ListenCall.Step.keeps {c : CallId} {call : ListenCall C Update Metadata} {e : ListenEvent}
    {pc : ListenPc C.Token Update} (h : call.Step c m e a m' pc) {σ : Sess} {k : ListenerKey}
    {listener : ListenerModel C.Token Metadata} (hl : m.listeners σ k = some listener)
    (hp : m'.futures listener.future = .pending) :
    m'.listeners σ k = some listener ∨ listener.future = c ∨
      ∃ t, call.pc = .registered t ∧ call.session = σ ∧ call.key = k := by
  cases h with
  | replace | replaceInvalid => exact .inl (Shared.cancel_listeners hl hp)
  | store pc =>
    by_cases hk : σ = call.session ∧ k = call.key
    · exact .inr (.inr ⟨_, pc, hk.1.symm, hk.2.symm⟩)
    · exact .inl (by rw [Shared.setListener_apply, if_neg hk, hl])
  | timer | interruptWait => exact .inl (by rw [Shared.cancelFuture_listeners, hl])
  | wake =>
    by_cases hc : listener.future = c
    · exact .inr (.inl hc)
    · exact .inl (Shared.cleanupListen_of_ne (by rw [Shared.failWaiter_listeners, hl]) hc)
  | callback =>
    by_cases hc : listener.future = c
    · exact .inr (.inl hc)
    · exact .inl (Shared.cleanupListen_of_ne hl hc)
  | _ => exact .inl hl

theorem ResolveCall.Step.keeps {r : CallId} {call : ResolveCall C Update Metadata}
    {e : ResolveEvent} {pc : ResolvePc C.Token Update Metadata} (h : call.Step r m e a m' pc)
    {σ : Sess} {k : ListenerKey} {listener : ListenerModel C.Token Metadata}
    (hl : m.listeners σ k = some listener) (hp : m'.futures listener.future = .pending) :
    m'.listeners σ k = some listener := by
  cases h with
  | superseded | supersededInvalid | bypass | bypassStale | bypassInvalid =>
    exact Shared.cancel_listeners hl hp
  | _ => exact hl

theorem CancelCall.Step.keeps {call : CancelCall C Update} {e : CancelEvent} {pc : CancelPc Update}
    (h : call.Step m e a m' pc) {σ : Sess} {k : ListenerKey}
    {listener : ListenerModel C.Token Metadata} (hl : m.listeners σ k = some listener)
    (hp : m'.futures listener.future = .pending) : m'.listeners σ k = some listener := by
  cases h with
  | stale | invalid | onlyLocal | proceed => exact Shared.cancel_listeners hl hp
  | _ => exact hl

/-- The calls waiting on a pending future have their listener in the map. -/
def State.Kept (s : State C Update Metadata) : Prop :=
  ∀ c call t i, s.listens c = some call → call.pc = .waiting t i →
    s.shared.futures c = .pending →
      s.shared.listeners call.session call.key = some ⟨call.key, call.metadata, c, some t⟩

/-- A listener whose future stays pending is spared by the steps of the other calls. -/
theorem Step.keeps (h : Step s l s') (hp : ∀ o, s.Protected o) {σ : Sess} {k : ListenerKey}
    {listener : ListenerModel C.Token Metadata} (hl : s.shared.listeners σ k = some listener)
    (hpend : s'.shared.futures listener.future = .pending)
    (hne : l.actor ≠ some (.listen listener.future)) :
    s'.shared.listeners σ k = some listener := by
  cases h with
  | @listen _ call _ _ _ _ running step =>
    rcases step.keeps hl hpend with h | hc | ⟨t, hpc, rfl, rfl⟩
    · exact h
    · exact absurd (by rw [Label.actor, hc]) hne
    · -- Where a listener is about to be stored, there is none.
      have hn := ((hp (.listen _) call running).registered hpc).2
      rw [hn] at hl
      cases hl
  | resolve _ step => exact step.keeps hl hpend
  | cancel _ step => exact step.keeps hl hpend
  | _ => exact hl

/-- A call comes to wait on a pending future by storing its listener. -/
theorem ListenCall.Step.stores {c : CallId} {call : ListenCall C Update Metadata} {e : ListenEvent}
    {pc : ListenPc C.Token Update} (h : call.Step c m e a m' pc) {t : C.Token} {i : Interrupt}
    (hpc : pc = .waiting t i) (hpend : m'.futures c = .pending) (hs : m.callbacks c ≠ true) :
    m'.listeners call.session call.key = some ⟨call.key, call.metadata, c, some t⟩ := by
  cases h with
  | store =>
    cases hpc
    rw [Shared.setListener_apply, if_pos ⟨rfl, rfl⟩]
  | timer | interruptWait => exact absurd hpend Shared.cancelFuture_done
  | callback scheduled => exact absurd scheduled hs
  | _ => exact absurd hpc nofun

theorem Step.kept (h : Step s l s')
    (hr : (listenerLts C Update Metadata).ReachableUnder NoStop s) (hk : s.Kept) : s'.Kept := by
  intro c call' t i hc' hpc hpend
  have hpend₀ : s.shared.futures c = .pending := by
    by_contra hd
    exact hd ((h.done_stays hd).symm.trans hpend)
  rcases h.listen_cases hc' with
    ⟨hc, hne⟩ | ⟨_, _, _, _, _, _, _, rfl⟩ | ⟨call, e, a, pc, hc, _, _, hst, rfl⟩
  · exact h.keeps (protected_of_reachable hr) (hk c call' t i hc hpc hpend₀) hpend hne
  · exact absurd hpc nofun
  · exact hst.stores hpc hpend fun hs => (timely_of_reachable hr).scheduled c hs hpend₀

/-- In a state reached while no coordinator stops, the waiting calls have their
    listener in the map. -/
theorem kept_of_reachable (h : (listenerLts C Update Metadata).ReachableUnder NoStop s) :
    s.Kept := by
  refine h.invariant_of_reachable (I := State.Kept) ?_ fun _ _ _ hr ih _ hst =>
    Step.kept hst hr ih
  rintro _ rfl _ _ _ _ hc
  exact absurd hc nofun

/-! ### A single session -/

/-- The listeners in the maps are registered, with their own token. -/
def State.InStep (s : State C Update Metadata) : Prop :=
  ∀ σ k listener, s.shared.listeners σ k = some listener →
    C.current s.shared.backend k = listener.coordinatorId

/-- With a single session, a step keeps the map and the registry in step. -/
theorem Step.inStep [Subsingleton Sess] (h : Step s l s') (hstop : NoStop s l)
    (hr : (listenerLts C Update Metadata).ReachableUnder NoStop s) (hi : s.InStep) : s'.InStep := by
  have hp := protected_of_reachable hr
  intro σ k listener hl
  rcases h.shrinks with hs | ⟨c, call, t, rfl, hc, hpc, hc', hm⟩
  · have hl₀ := hs.of_some hl
    have hcur := hi σ k listener hl₀
    rcases h.backend_cases with hb | ⟨σ', k', hrev, hb⟩ | ⟨c, call, t, o, hc, hpc, hb⟩ |
      ⟨σ', hl', _⟩ | ⟨c, call, t, _, hc, hpc, _, reg⟩
    · rw [hb, hcur]
    · -- The key that is cancelled has no listener left.
      rw [hb, ListenerCoordinator.current_cancel, Function.update_of_ne, hcur]
      rintro rfl
      have hn := hrev.vacant hp
      rw [Subsingleton.elim σ' σ, hl₀] at hn
      cases hn
    · -- The token that is withdrawn is that of another call.
      obtain ⟨call', t', i, hc', hpc', _, _, he⟩ := waited_of_reachable hr σ k listener hl₀
      have hcid : listener.coordinatorId = some t' := by rw [he]
      have hne : t' ≠ t := by
        rintro rfl
        obtain rfl := (issued_of_reachable hr).inj _ _ _ _ t' hc' hc
          (by rw [ListenCall.token, hpc']) (by rw [ListenCall.token, hpc])
        rw [hc, Option.some.injEq] at hc'
        rw [hc', hpc'] at hpc
        cases hpc
      rw [hcid] at hcur ⊢
      rw [hb]
      exact (ListenerCoordinator.current_unregister_of_ne_token hne).2 hcur
    · exact absurd hl' (hstop σ')
    · rw [ListenerCoordinator.current_register reg, Function.update_of_ne, hcur]
      rintro rfl
      have hn := ((hp (.listen c) call hc).registering hpc).2
      rw [Subsingleton.elim call.session σ, hl₀] at hn
      cases hn
  · have hb : s'.shared.backend = s.shared.backend := by rw [hm]; rfl
    rw [hm, Shared.setListener_apply] at hl
    rw [hb]
    split at hl
    · -- The listener is the one just stored, registered before.
      rename_i hk
      obtain rfl := Option.some.inj hl
      rw [hk.2, ((hp (.listen c) call hc).registered hpc).1]
    · exact hi σ k listener hl

/-- In a state of a single session, reached while its coordinator does not stop, the
    map and the registry are in step. -/
theorem inStep_of_reachable [Subsingleton Sess]
    (h : (listenerLts C Update Metadata).ReachableUnder NoStop s) : s.InStep := by
  refine h.invariant_of_reachable (I := State.InStep) ?_ fun _ _ _ hr ih hp hst =>
    Step.inStep hst hp hr ih
  rintro _ rfl _ _ _ hl
  exact absurd hl nofun

omit [DecidableEq Sess] in
/-- Where they are in step, a key that is not registered has no listener. -/
theorem State.InStep.vacant (hi : s.InStep) (hw : s.Waited) {σ : Sess} {k : ListenerKey}
    (hn : C.current s.shared.backend k = none) : s.shared.listeners σ k = none := by
  cases hl : s.shared.listeners σ k with
  | none => rfl
  | some listener =>
    obtain ⟨_, t, _, _, _, _, _, he⟩ := hw σ k listener hl
    have hcur := hi σ k listener hl
    rw [hn, he] at hcur
    exact absurd hcur nofun

/-! ### How the critical section of `listen` is left -/

/-- The exceptions `listen` raises before it has obtained a token. -/
theorem ListenCall.Step.raises {c : CallId} {call : ListenCall C Update Metadata} {e : ListenEvent}
    {pc : ListenPc C.Token Update} (h : call.Step c m e a m' pc) {exc : Exc Update}
    (hpc : pc = .ended none (.raised exc)) : call.pc = pc ∨ exc = .cancelledError ∨
      call.policy = .reject ∧ exc = .listenerAlreadyExists call.key ∨
      e = .looked ∧ call.pc = .looked true ∧ call.policy = .replace ∧ exc = .invalidState ∧
        (m.cancel call.session call.key true none).2 = .invalid ∨
      e = .looked ∧ call.pc = .looked false ∧ exc = .outOfSync ∧
        m.listeners call.session call.key ≠ none ∨
      call.pc = .registering ∧ exc = .keyError call.key ∧
        C.RegisterFails m.backend call.session call.key := by
  cases h with
  | interruptLock =>
    cases hpc
    exact .inr (.inl rfl)
  | reject _ policy =>
    cases hpc
    exact .inr (.inr (.inl ⟨policy, rfl⟩))
  | replaceInvalid pc policy head =>
    cases hpc
    exact .inr (.inr (.inr (.inl ⟨rfl, pc, policy, rfl, head⟩)))
  | outOfSync pc stale =>
    cases hpc
    exact .inr (.inr (.inr (.inr (.inl ⟨rfl, pc, rfl, stale⟩))))
  | registerFails pc reg =>
    cases hpc
    exact .inr (.inr (.inr (.inr (.inr ⟨pc, rfl, reg⟩))))
  | callback => exact .inl rfl
  | _ => exact absurd hpc nofun

/-! ### One listener, in memory -/

section Memory

/-- The registrations in memory. -/
def State.data (s : State memoryCoordinator Update Metadata) : ListenerKey → Option ℕ :=
  MemoryListenerCoordinator.data s.shared.backend

/-- The map and the registry, in memory. Every waiting call is the one stored under
    its key, every listener stored is registered with its token, and `listen` never
    finds the two out of sync, nor does `register` raise `KeyError`. -/
theorem in_step {s : State memoryCoordinator Update Metadata}
    (h : (listenerLts memoryCoordinator Update Metadata).ReachableUnder NoStop s) :
    (∀ c call t i, s.listens c = some call → call.pc = .waiting t i →
      s.shared.futures c = .pending →
        s.shared.listeners () call.key = some ⟨call.key, call.metadata, c, some t⟩) ∧
    (∀ k listener, s.shared.listeners () k = some listener →
      ∃ t, listener.coordinatorId = some t ∧ s.data k = some t) ∧
    ∀ c call, s.listens c = some call → call.pc ≠ .ended none (.raised .outOfSync) ∧
      ∀ k, call.pc ≠ .ended none (.raised (.keyError k)) := by
  refine ⟨kept_of_reachable h, fun k listener hl => ?_, ?_⟩
  · have hcur := inStep_of_reachable h () k listener hl
    obtain ⟨call, t, _, _, _, _, _, he⟩ := waited_of_reachable h () k listener hl
    exact ⟨t, by rw [he], hcur.trans (by rw [he])⟩
  refine h.invariant_of_reachable (I := fun s => ∀ c call, s.listens c = some call →
    call.pc ≠ .ended none (.raised .outOfSync) ∧ ∀ k, call.pc ≠ .ended none (.raised (.keyError k)))
    (by rintro _ rfl _ _ hc; exact absurd hc nofun) ?_
  intro s l s' hr ih hp hst c call' hc'
  rcases hst.listen_cases hc' with
    ⟨hc, _⟩ | ⟨_, _, _, _, _, _, _, rfl⟩ | ⟨call, e, a, pc, hc, _, _, hs, rfl⟩
  · exact ih c call' hc
  · exact ⟨nofun, nofun⟩
  have hprot := protected_of_reachable hr (.listen c) call hc
  constructor
  · intro hpc
    rcases hs.raises hpc with h | h | ⟨_, h⟩ | ⟨_, _, _, h, _⟩ | ⟨_, hlook, _, hne⟩ | ⟨_, h, _⟩
    · exact (ih c call hc).1 (h.trans hpc)
    · exact absurd h nofun
    · exact absurd h nofun
    · exact absurd h nofun
    · -- The registry has no registration, so the map has no listener.
      exact hne ((inStep_of_reachable hr).vacant (waited_of_reachable hr)
        (by simpa using hprot.looked hlook))
    · exact absurd h nofun
  · intro k hpc
    rcases hs.raises hpc with h | h | ⟨_, h⟩ | ⟨_, _, _, h, _⟩ | ⟨_, _, h, _⟩ | ⟨hreg, _, hf⟩
    · exact (ih c call hc).2 k (h.trans hpc)
    · exact absurd h nofun
    · exact absurd h nofun
    · exact absurd h nofun
    · exact absurd h nofun
    · exact hprot.not_registerFails hreg hf

/-- A call of `listen` that waits, in memory. -/
theorem in_step_waiting : ∃ s : State memoryCoordinator ℕ Unit,
    (listenerLts memoryCoordinator ℕ Unit).ReachableUnder NoStop s ∧
    s.shared.listeners () ⟨100, none, none⟩ = some ⟨⟨100, none, none⟩, none, 0, some (0 : ℕ)⟩ ∧
      s.data ⟨100, none, none⟩ = some 0 := by
  have h₀ : (listenerLts memoryCoordinator ℕ Unit).ReachableUnder NoStop (.init ..) := .init rfl
  have h₁ := h₀.run (run_listen 0 () ⟨100, none, none⟩ none .reject
    (fun _ _ _ hl => hl.ne_stop) rfl rfl rfl rfl rfl)
  obtain ⟨hkept, hreg, _⟩ := in_step h₁
  have hl := hkept 0 _ _ _ rfl rfl rfl
  obtain ⟨t, ht, hdata⟩ := hreg _ _ hl
  cases ht
  exact ⟨_, h₁, hl, hdata⟩

end Memory

/-! ### Sessions over one Redis -/

section Redis

/-- A call of `listen` that replaces and looks at the local map finds it in sync with
    the registry: no listener under a key that is not registered, and none but a
    pending one under a key that is. No coordinator stops. -/
def ReplacesInSync (s : State C Update Metadata) (l : Label C Update Metadata) : Prop :=
  NoStop s l ∧ ∀ c call, l = .listen c .looked → s.listens c = some call →
    call.policy = .replace →
      (C.current s.shared.backend call.key = none →
        s.shared.listeners call.session call.key = none) ∧
      ∀ listener, C.current s.shared.backend call.key ≠ none →
        s.shared.listeners call.session call.key = some listener →
          s.shared.futures listener.future = .pending

omit [DecidableEq Sess] in
/-- The other steps are not concerned. -/
theorem ReplacesInSync.of_ne (hstop : NoStop s l) (hl : ∀ c, l ≠ .listen c .looked) :
    ReplacesInSync s l :=
  ⟨hstop, fun c _ h => absurd h (hl c)⟩

omit [DecidableEq Sess] in
/-- Nor is a call that finds no listener of its session under the key. -/
theorem ReplacesInSync.of_eq_none {c : CallId} {call : ListenCall C Update Metadata}
    (hc : s.listens c = some call) (hl : s.shared.listeners call.session call.key = none) :
    ReplacesInSync s (.listen c .looked) := by
  refine ⟨nofun, fun c' call' hlab hc' _ => ?_⟩
  cases hlab
  obtain rfl := Option.some.inj (hc.symm.trans hc')
  exact ⟨fun _ => hl, fun _ _ h => absurd (hl.symm.trans h) nofun⟩

/-- A call of `listen` that replaces raises, when it looks at the local map, where
    the map is out of sync with the registry. -/
theorem ListenCall.Step.looked_iff {c : CallId} {call : ListenCall C Update Metadata}
    {pc : ListenPc C.Token Update} (h : call.Step c m .looked a m' pc) (hprot : call.Protected m)
    (hpol : call.policy = .replace) :
    ((C.current m.backend call.key = none → m.listeners call.session call.key = none) ∧
      ∀ listener, C.current m.backend call.key ≠ none →
        m.listeners call.session call.key = some listener →
          m.futures listener.future = .pending) ↔
      ∀ exc, pc ≠ .ended none (.raised exc) := by
  cases h with
  | reject _ policy => exact absurd (policy.symm.trans hpol) nofun
  | replace pc _ head =>
    refine iff_of_true ⟨fun hn => ?_, fun listener _ hl => ?_⟩ nofun
    · have := hprot.looked pc
      rw [hn] at this
      exact absurd this nofun
    · by_contra hd
      exact absurd (head.symm.trans (Shared.cancel_invalid_iff.2 ⟨listener, hl, .inl rfl, hd⟩))
        nofun
  | replaceInvalid pc _ head =>
    obtain ⟨listener, hl, _, hd⟩ := Shared.cancel_invalid_iff.1 head
    refine iff_of_false (fun h => hd (h.2 listener (fun hn => ?_) hl)) fun h => h _ rfl
    have := hprot.looked pc
    rw [hn] at this
    exact absurd this nofun
  | outOfSync pc stale =>
    refine iff_of_false (fun h => stale (h.1 ?_)) fun h => h _ rfl
    simpa using hprot.looked pc
  | proceed pc free =>
    refine iff_of_true ⟨fun _ => free, fun _ hne => absurd ?_ hne⟩ nofun
    simpa using hprot.looked pc

/-- In the runs where the maps are in sync with the registry, a call of `listen`
    that replaces raises nothing from its critical section. -/
theorem replaces_of_reachable
    (h : (listenerLts C Update Metadata).ReachableUnder ReplacesInSync s) :
    ∀ c call exc, s.listens c = some call → call.policy = .replace →
      call.pc = .ended none (.raised exc) → exc = .cancelledError := by
  refine h.invariant_of_reachable (I := fun s => ∀ c call exc, s.listens c = some call →
    call.policy = .replace → call.pc = .ended none (.raised exc) → exc = .cancelledError)
    (by rintro _ rfl _ _ _ hc; exact absurd hc nofun) ?_
  intro s l s' hr ih hp hst c call' exc hc' hpol hpc
  rcases hst.listen_cases hc' with
    ⟨hc, _⟩ | ⟨_, _, _, _, _, _, _, rfl⟩ | ⟨call, e, a, pc, hc, rfl, _, hs, rfl⟩
  · exact ih c call' exc hc hpol hpc
  · exact absurd hpc nofun
  have hprot := protected_of_reachable (hr.mono fun _ _ h => h.1) (.listen c) call hc
  rcases hs.raises hpc with h | h | ⟨h, _⟩ | ⟨rfl, _⟩ | ⟨rfl, _⟩ | ⟨hreg, _, hf⟩
  · exact ih c call exc hc hpol (h.trans hpc)
  · exact h
  · exact absurd (h.symm.trans hpol) nofun
  · exact absurd hpc ((hs.looked_iff hprot hpol).1 (hp.2 c call rfl hc hpol) exc)
  · exact absurd hpc ((hs.looked_iff hprot hpol).1 (hp.2 c call rfl hc hpol) exc)
  · exact absurd hf (hprot.not_registerFails hreg)

/-! #### Signals -/

/-- The token a call of `listen` is registered with, from its `register` to the end of its wait. -/
def ListenCall.registration (call : ListenCall C Update Metadata) : Option C.Token :=
  match call.pc with
  | .registered t | .waiting t _ => some t
  | _ => none

/-- A call keeps the token it is registered with, or has just registered. -/
theorem ListenCall.Step.registration {c : CallId} {call : ListenCall C Update Metadata}
    {e : ListenEvent} {pc : ListenPc C.Token Update} (h : call.Step c m e a m' pc) {t : C.Token}
    (ht : ListenCall.registration { call with pc := pc } = some t) :
    call.registration = some t ∨ C.Registers m.backend call.session call.key t m'.backend := by
  cases h with
  | register pc reg =>
    obtain rfl := Option.some.inj ht
    exact .inr reg
  | store pc | timer pc | interruptWait pc =>
    rw [ListenCall.registration, pc]
    exact .inl ht
  | callback => exact .inl ht
  | _ => exact absurd ht nofun

omit [DecidableEq Sess] in
/-- A call that is registered has obtained its token. -/
theorem ListenCall.token_of_registration {call : ListenCall C Update Metadata} {t : C.Token}
    (h : call.registration = some t) : call.token = some t := by
  obtain ⟨_, _, _, _, pc⟩ := call
  cases pc with
  | registered | waiting => exact h
  | _ => exact absurd h nofun

section Published

open RedisListenerCoordinator

variable {Token : Type} [DecidableEq Token]
  {s s' : State (redisCoordinator Sess Token) Update Metadata}
  {l : Label (redisCoordinator Sess Token) Update Metadata}

/-- The token of a call that is registered stays in Redis, or a signal with it is published. -/
theorem Step.registered_or_published (h : Step s l s') (hstop : NoStop s l) (hi : s.Issued)
    {c : CallId} {call : ListenCall (redisCoordinator Sess Token) Update Metadata} {t : Token}
    (hc : s.listens c = some call) (ht : call.registration = some t)
    (hred : redis s.shared.backend call.key = some t ∨ (call.key, t) ∈ published s.shared.backend) :
    redis s'.shared.backend call.key = some t ∨ (call.key, t) ∈ published s'.shared.backend := by
  rcases h.backend_cases with hb | ⟨σ, k, _, hb⟩ | ⟨c₁, call₁, t₁, o, hc₁, hpc₁, hb⟩ | ⟨σ, hl, _⟩ |
    ⟨c₁, call₁, t₁, _, _, _, _, hreg⟩
  · rwa [hb]
  · rw [hb]
    rcases hred with hred | hpub
    · by_cases hk : call.key = k
      · subst hk
        exact .inr (published_cancel hred)
      · refine .inl (Eq.trans (congrFun (ListenerCoordinator.current_cancel
          (C := redisCoordinator Sess Token)) call.key) ?_)
        rw [Function.update_of_ne hk]
        exact hred
    · exact .inr (published_subset_cancel hpub)
  · rw [hb]
    refine hred.imp (fun hred => ?_) id
    -- The call that withdraws its registration is another one.
    have hne : t ≠ t₁ := by
      rintro rfl
      have htok₁ : call₁.token = some t := by
        rw [ListenCall.token, hpc₁]
        rfl
      obtain rfl := hi.inj _ _ _ _ t hc hc₁ (ListenCall.token_of_registration ht) htok₁
      obtain rfl := Option.some.inj (hc.symm.trans hc₁)
      rw [ListenCall.registration, hpc₁] at ht
      cases ht
    exact (ListenerCoordinator.current_unregister_of_ne_token
      (C := redisCoordinator Sess Token) (σ := call₁.session) hne).2 hred
  · exact absurd hl (hstop σ)
  · obtain ⟨hd, hr⟩ := hreg
    refine hred.imp (fun hred => ?_) fun hpub => published_register hr ▸ hpub
    have hne : call.key ≠ call₁.key := fun hk => by
      rw [hk, (register_eq_some hr).1] at hred
      cases hred
    refine Eq.trans (congrFun (ListenerCoordinator.current_register
      (C := redisCoordinator Sess Token) ⟨hd, hr⟩) call.key) ?_
    rw [Function.update_of_ne hne]
    exact hred

/-- In a reachable state, a call that is registered has its token in Redis, unless a signal with
    it was published. -/
theorem registered_or_published
    (h : (listenerLts (redisCoordinator Sess Token) Update Metadata).ReachableUnder NoStop s) :
    ∀ c call t, s.listens c = some call → call.registration = some t →
      redis s.shared.backend call.key = some t ∨ (call.key, t) ∈ published s.shared.backend := by
  refine h.invariant_of_reachable (I := fun s => ∀ c call t, s.listens c = some call →
    call.registration = some t → redis s.shared.backend call.key = some t ∨
      (call.key, t) ∈ published s.shared.backend)
    (by rintro _ rfl _ _ _ hc; exact absurd hc nofun) ?_
  intro s l s' hr ih hp hst c call' t hc' ht
  have hi := issued_of_reachable hr
  rcases hst.listen_cases hc' with
    ⟨hc, _⟩ | ⟨_, _, _, _, _, _, _, rfl⟩ | ⟨call, e, _, pc, hc, _, _, hs, rfl⟩
  · exact Step.registered_or_published hst hp hi hc ht (ih c call' t hc ht)
  · exact absurd ht nofun
  · rcases hs.registration ht with ht₀ | hreg
    · have hkept := Step.registered_or_published hst hp hi hc ht₀ (ih c call t hc ht₀)
      exact hkept
    · refine .inl (Eq.trans (congrFun (ListenerCoordinator.current_register hreg) call.key) ?_)
      exact Function.update_self ..

/-- The condition on the past of a key that a call of `listen` replaces: when the call looks at
    the local map, the signals with the token of the listener there have been applied, and so has
    its done-callback run if it was due. No coordinator stops. -/
def AppliesFirst (s : State (redisCoordinator Sess Token) Update Metadata)
    (l : Label (redisCoordinator Sess Token) Update Metadata) : Prop :=
  NoStop s l ∧ ∀ c call, l = .listen c .looked → s.listens c = some call →
    call.policy = .replace → ∀ listener (t : Token),
      s.shared.listeners call.session call.key = some listener →
        listener.coordinatorId = some t → (call.key, t) ∉ published s.shared.backend ∧
          s.shared.callbacks listener.future = false

/-- Where signals are applied and done-callbacks run before a key is listened on again, the map
    is in sync with Redis. -/
theorem replacesInSync_of_appliesFirst
    (h : (listenerLts (redisCoordinator Sess Token) Update Metadata).ReachableUnder NoStop s)
    (hl : AppliesFirst s l) : ReplacesInSync s l := by
  refine ⟨hl.1, fun c call hlab hc hpol => ⟨fun hnone => ?_, fun listener _ hlist => ?_⟩⟩
  · cases hlist : s.shared.listeners call.session call.key with
    | none => rfl
    | some listener =>
      obtain ⟨call', t, _, hc', hpc, _, hk, he⟩ := waited_of_reachable h _ _ _ hlist
      have hid : listener.coordinatorId = some t := by rw [he]
      have hreg := registered_or_published h _ call' t hc' (by rw [ListenCall.registration, hpc])
      rw [hk] at hreg
      rcases hreg with hreg | hpub
      · exact absurd (hnone.symm.trans hreg) nofun
      · exact absurd hpub (hl.2 c call hlab hc hpol listener t hlist hid).1
  · obtain ⟨_, t, _, _, _, _, _, he⟩ := waited_of_reachable h _ _ _ hlist
    have hid : listener.coordinatorId = some t := by rw [he]
    by_contra hd
    exact absurd ((hl.2 c call hlab hc hpol listener t hlist hid).2.symm.trans
      (due_of_reachable h _ _ _ hlist hd)) nofun

/-- In such runs, a call of `listen` that replaces raises nothing from its critical section. -/
theorem replaces_of_appliesFirst
    (h : (listenerLts (redisCoordinator Sess Token) Update Metadata).ReachableUnder
      AppliesFirst s) :
    ∀ c call exc, s.listens c = some call → call.policy = .replace →
      call.pc = .ended none (.raised exc) → exc = .cancelledError :=
  replaces_of_reachable (h.mono_of_reachable fun _ _ hr hl =>
    replacesInSync_of_appliesFirst (hr.mono fun _ _ h => h.1) hl)

end Published

/-! #### Where `listen` registers -/

variable {Token : Type} [DecidableEq Token]

/-- A call of `listen` in its first critical section. -/
def ListenCall.Registering (call : ListenCall C Update Metadata) : Prop :=
  match call.pc with
  | .lookup | .looked _ | .replacing | .registering | .registered _ => True
  | _ => False

/-- A call of `listen` does not get stuck in its critical section, as long as there
    are uuids to draw. -/
theorem ListenCall.Registering.exists_step {c : CallId}
    {m : Shared (redisCoordinator Sess Token) Update Metadata}
    {call : ListenCall (redisCoordinator Sess Token) Update Metadata} (h : call.Registering)
    (hprot : call.Protected m)
    (huuid : ∃ uuid : Token, uuid ∉ RedisListenerCoordinator.drawn m.backend) :
    ∃ e a m' pc, call.Step c m e a m' pc ∧ pc ≠ call.pc ∧ a.Enabled fun _ => true := by
  obtain ⟨σ, k, metadata, policy, pc⟩ := call
  cases pc with
  | lookup => exact ⟨_, _, _, _, .lookup rfl, nofun, trivial⟩
  | looked registered =>
    cases registered with
    | false =>
      by_cases hn : m.listeners σ k = none
      · exact ⟨_, _, _, _, .proceed rfl hn, nofun, trivial⟩
      · exact ⟨_, _, _, _, .outOfSync rfl hn, nofun, trivial⟩
    | true =>
      cases policy with
      | reject => exact ⟨_, _, _, _, .reject rfl rfl, nofun, trivial⟩
      | replace =>
        cases hhead : (m.cancel σ k true none).2 with
        | stale =>
          rcases m.cancel_cases σ k true none with
            ⟨_, he⟩ | ⟨_, _, ⟨hne, _⟩ | ⟨_, ⟨_, he⟩ | ⟨_, he⟩⟩⟩
          · exact absurd (he ▸ hhead) nofun
          · exact absurd rfl hne
          · exact absurd (he ▸ hhead) nofun
          · exact absurd (he ▸ hhead) nofun
        | invalid => exact ⟨_, _, _, _, .replaceInvalid rfl rfl hhead, nofun, trivial⟩
        | proceed => exact ⟨_, _, _, _, .replace rfl rfl hhead, nofun, trivial⟩
  | replacing => exact ⟨_, _, _, _, .replaced rfl, nofun, trivial⟩
  | registering =>
    obtain ⟨uuid, hu⟩ := huuid
    cases hreg : RedisListenerCoordinator.register m.backend σ k uuid hu with
    | none => exact absurd ⟨uuid, hu, hreg⟩ (hprot.not_registerFails rfl)
    | some b => exact ⟨_, _, _, _, .register rfl ⟨hu, hreg⟩, nofun, trivial⟩
  | registered => exact ⟨_, _, _, _, .store rfl, nofun, trivial⟩
  | _ => exact h.elim

/-- Where `listen` under `REPLACE` registers. In the runs where the local maps are in
    sync with Redis, it raises nothing from its critical section (it may be cancelled
    before), does not get stuck there, and leaves Redis and the map with its new token
    under the key. And from any state, it raises where the map is out of sync. -/
theorem replace_registers
    {s : State (redisCoordinator Sess Token) Update Metadata}
    (h : (listenerLts (redisCoordinator Sess Token) Update Metadata).ReachableUnder
      ReplacesInSync s) :
    (∀ c call exc, s.listens c = some call → call.policy = .replace →
      call.pc = .ended none (.raised exc) → exc = .cancelledError) ∧
    (∀ c call s', s.listens c = some call → Step s (.listen c .store) s' →
      ∃ t : Token, RedisListenerCoordinator.redis s'.shared.backend call.key = some t ∧
        s'.shared.listeners call.session call.key =
          some ⟨call.key, call.metadata, c, some t⟩) ∧
    (∀ c call, s.listens c = some call → call.Registering →
      (∃ uuid : Token, uuid ∉ RedisListenerCoordinator.drawn s.shared.backend) →
        ∃ e s' call', Step s (.listen c e) s' ∧ s'.listens c = some call' ∧
          call'.pc ≠ call.pc) ∧
    ∀ s₁ : State (redisCoordinator Sess Token) Update Metadata,
      (listenerLts _ _ _).ReachableUnder NoStop s₁ → ∀ c call s₂, s₁.listens c = some call →
        call.policy = .replace → Step s₁ (.listen c .looked) s₂ →
          (ReplacesInSync s₁ (.listen c .looked) ↔
            ∀ call' exc, s₂.listens c = some call' → call'.pc ≠ .ended none (.raised exc)) := by
  refine ⟨replaces_of_reachable h, fun c call s' hc hst => ?_, fun c call hc hreg huuid => ?_,
    fun s₁ h₁ c call s₂ hc hpol hst => ?_⟩
  · have hprot := protected_of_reachable (h.mono fun _ _ h => h.1) (.listen c) call hc
    cases hst with
    | listen running step =>
      rw [hc, Option.some.injEq] at running
      subst running
      cases step with
      | store pc =>
        exact ⟨_, (hprot.registered pc).1, by rw [Shared.setListener_apply, if_pos ⟨rfl, rfl⟩]⟩
  · have hprot := protected_of_reachable (h.mono fun _ _ h => h.1) (.listen c) call hc
    obtain ⟨e, a, m, pc, hst, hne, ha⟩ := hreg.exists_step (c := c) hprot huuid
    -- The step acquires no lock.
    have ha' : a.Enabled s.locked := by
      cases a with
      | acquire => exact absurd ha nofun
      | _ => trivial
    exact ⟨e, _, _, .listen hc hst ha', Function.update_self .., hne⟩
  · have hprot := protected_of_reachable h₁ (.listen c) call hc
    cases hst with
    | listen running step =>
      rw [hc, Option.some.injEq] at running
      subst running
      have hiff := step.looked_iff hprot hpol
      constructor
      · intro hsync call' exc hc'
        simp only [Function.update_self, Option.some.injEq] at hc'
        subst hc'
        exact hiff.1 (hsync.2 c call rfl hc hpol) exc
      · intro hne
        refine ⟨nofun, fun c' call' hl hc' _ => ?_⟩
        cases hl
        rw [hc, Option.some.injEq] at hc'
        subst hc'
        exact hiff.2 fun exc => hne _ exc (Function.update_self ..)

/-- The session `true` takes the key over from the session `false`, which keeps its listener in
    the map as long as the signal does not reach it. -/
theorem replace_registers_take_over : ∃ s : State (redisCoordinator Bool ℕ) ℕ Unit,
    (listenerLts (redisCoordinator Bool ℕ) ℕ Unit).ReachableUnder ReplacesInSync s ∧
    RedisListenerCoordinator.redis s.shared.backend ⟨100, none, none⟩ = some 8 ∧
    s.shared.listeners true ⟨100, none, none⟩ =
      some ⟨⟨100, none, none⟩, none, 1, some (8 : ℕ)⟩ ∧
    s.shared.listeners false ⟨100, none, none⟩ =
      some ⟨⟨100, none, none⟩, none, 0, some (7 : ℕ)⟩ := by
  obtain ⟨s, h, hcall, hother⟩ : ∃ s : State (redisCoordinator Bool ℕ) ℕ Unit,
      (listenerLts (redisCoordinator Bool ℕ) ℕ Unit).ReachableUnder ReplacesInSync s ∧
      s.listens 1 = some ⟨true, ⟨100, none, none⟩, none, .replace, .registered (8 : ℕ)⟩ ∧
      s.shared.listeners false ⟨100, none, none⟩ =
        some ⟨⟨100, none, none⟩, none, 0, some (7 : ℕ)⟩ := by
    have h₀ : (listenerLts (redisCoordinator Bool ℕ) ℕ Unit).ReachableUnder ReplacesInSync
      (.init ..) := .init rfl
    have h₁ := h₀.tail (l := Label.startListen 0 false ⟨100, none, none⟩ none .replace)
      (by exact .of_ne nofun nofun) (.startListen rfl)
    have h₂ := h₁.tail (by exact .of_ne nofun nofun) (.listen (c := 0) rfl (.lock rfl) rfl)
    have h₃ := h₂.tail (by exact .of_ne nofun nofun)
      (.listen (c := 0) rfl (.lookup rfl) trivial)
    have h₄ := h₃.tail (by exact .of_eq_none rfl rfl)
      (.listen (c := 0) rfl (.proceed rfl rfl) trivial)
    have h₅ := h₄.tail (by exact .of_ne nofun nofun)
      (.listen (c := 0) rfl (.register (t := (7 : ℕ)) rfl ⟨id, rfl⟩) trivial)
    have h₆ := h₅.tail (by exact .of_ne nofun nofun) (.listen (c := 0) rfl (.store rfl) trivial)
    -- The other session takes the key over.
    have h₇ := h₆.tail (l := Label.startListen 1 true ⟨100, none, none⟩ none .replace)
      (by exact .of_ne nofun nofun) (.startListen rfl)
    have h₈ := h₇.tail (by exact .of_ne nofun nofun) (.listen (c := 1) rfl (.lock rfl) rfl)
    have h₉ := h₈.tail (by exact .of_ne nofun nofun)
      (.listen (c := 1) rfl (.lookup rfl) trivial)
    have h₁₀ := h₉.tail (by exact .of_eq_none rfl rfl)
      (.listen (c := 1) rfl (.replace rfl rfl rfl) trivial)
    have h₁₁ := h₁₀.tail (by exact .of_ne nofun nofun)
      (.listen (c := 1) rfl (.replaced rfl) trivial)
    have h₁₂ := h₁₁.tail (by exact .of_ne nofun nofun) (.listen (c := 1) rfl
      (.register (t := (8 : ℕ)) rfl ⟨fun h => Or.elim h nofun id, rfl⟩) trivial)
    exact ⟨_, h₁₂, rfl, rfl⟩
  have hstep := Step.listen (c := 1) hcall (.store rfl) trivial
  obtain ⟨t, ht, hl⟩ := (replace_registers h).2.1 1 _ _ hcall hstep
  have hid := hl
  rw [Shared.setListener_apply, if_pos ⟨rfl, rfl⟩, Option.some.injEq] at hid
  obtain rfl : (8 : ℕ) = t := Option.some.inj (congrArg ListenerModel.coordinatorId hid)
  exact ⟨_, h.tail (by exact .of_ne nofun nofun) hstep, ht, hl, hother⟩

/-- The sessions `false` and `true` listen on the same key, one after the other, and
    the signal of the take-over is lost. When the second listener has timed out, the
    first session, which still has its own listener in the map, listens again. -/
theorem replace_raises : ¬∀ s : State (redisCoordinator Bool ℕ) ℕ Unit,
    (listenerLts (redisCoordinator Bool ℕ) ℕ Unit).ReachableUnder NoStop s →
      ∀ c call exc, s.listens c = some call → call.policy = .replace →
        call.pc = .ended none (.raised exc) → exc = .cancelledError := by
  intro hclaim
  have h₀ : (listenerLts (redisCoordinator Bool ℕ) ℕ Unit).ReachableUnder NoStop (.init ..) :=
    .init rfl
  have h₁ := h₀.run (run_listen 0 false ⟨100, none, none⟩ none .replace
    (fun _ _ _ hl => hl.ne_stop) rfl rfl rfl rfl (t := (0 : ℕ)) ⟨id, rfl⟩)
  -- The other session takes the key over.
  have h₂ := h₁.run (run_take_over 1 true ⟨100, none, none⟩ none
    (fun _ _ _ hl => hl.ne_stop) rfl rfl rfl rfl (t := (1 : ℕ)) ⟨fun h => Or.elim h nofun id, rfl⟩)
  -- Its listener times out, and unregisters.
  have h₃ := h₂.tail (by exact nofun) (.listen (c := 1) rfl (.timer rfl) trivial)
  have h₄ := h₃.tail (by exact nofun) (.listen (c := 1) rfl (.wake rfl (.inl nofun)) trivial)
  have h₅ := h₄.tail (by exact nofun) (.listen (c := 1) rfl (.relock rfl) rfl)
  have h₆ := h₅.tail (by exact nofun) (.listen (c := 1) rfl (.unregister rfl) trivial)
  -- The first session listens again.
  have h₇ := h₆.tail (l := Label.startListen 2 false ⟨100, none, none⟩ none .replace)
    (by exact nofun) (.startListen rfl)
  have h₈ := h₇.tail (by exact nofun) (.listen (c := 2) rfl (.lock rfl) rfl)
  have h₉ := h₈.tail (by exact nofun) (.listen (c := 2) rfl (.lookup rfl) trivial)
  have h₁₀ := h₉.tail (by exact nofun) (.listen (c := 2) rfl (.outOfSync rfl nofun) trivial)
  exact absurd (hclaim _ h₁₀ 2 _ _ rfl rfl rfl) nofun

end Redis

end Pyroflow
