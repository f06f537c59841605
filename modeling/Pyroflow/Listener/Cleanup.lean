import Pyroflow.Listener.Registration

/-!
# The registrations a call leaves behind

`listen` withdraws its registration in its `finally` block, once it has the chat
lock. A task that is cancelled while it waits for that lock, which a call of
`resolve` may hold across its bypass hook, withdraws nothing (`listen_leaks`). Without
such cancellations, a registration in memory is that of a call that has not ended
(`State.Owned`), so that a key without such a call is free (`listen_cleans_up`).

The coordinator may stop meanwhile. Its tokens then start again, and a token left
behind by a call is told from that of a later one by the condition `CleansUp`.
-/

namespace Pyroflow

variable {Sess : Type} {C : ListenerCoordinator Sess} {Update Metadata : Type}

/-! ### Live calls -/

/-- The token of a call of `listen` that has not ended. -/
def ListenCall.live (call : ListenCall C Update Metadata) : Option C.Token :=
  match call.pc with
  | .registered t | .waiting t _ | .finalizing t _ | .unregistering t _ => some t
  | _ => none

/-- The registrations are those of calls that have not ended. -/
def State.Owned (s : State C Update Metadata) : Prop :=
  ∀ k t, C.current s.shared.backend k = some t →
    ∃ c call, s.listens c = some call ∧ call.key = k ∧ call.live = some t

/-- The keys of the calls that have ended are not registered with their tokens. -/
def State.Clean (s : State C Update Metadata) : Prop :=
  ∀ c call t o, s.listens c = some call → call.pc = .ended (some t) o →
    C.current s.shared.backend call.key ≠ some t

variable [DecidableEq Sess] {m m' : Shared C Update Metadata} {a : Mutex.Action ℤ}
  {s s' : State C Update Metadata} {l : Label C Update Metadata}

/-- A call ends withdrawing its registration, or interrupted before. -/
theorem ListenCall.Step.live {c : CallId} {call : ListenCall C Update Metadata} {e : ListenEvent}
    {pc : ListenPc C.Token Update} (h : call.Step c m e a m' pc) {t : C.Token}
    (ht : call.live = some t) : ListenCall.live { call with pc := pc } = some t ∨
      m'.backend = (C.unregister m.backend call.session call.key (some t)).2 ∨
      e = .interrupt ∧ ∃ o, call.pc = .finalizing t o := by
  cases h with
  | store pc | timer pc | interruptWait pc | wake pc | relock pc =>
    rw [ListenCall.live, pc] at ht
    exact .inl ht
  | unregister pc =>
    rw [ListenCall.live, pc, Option.some.injEq] at ht
    subst ht
    exact .inr (.inl rfl)
  | interruptFinally pc =>
    rw [ListenCall.live, pc, Option.some.injEq] at ht
    subst ht
    exact .inr (.inr ⟨rfl, _, pc⟩)
  | callback => exact .inl ht
  | _ pc =>
    rw [ListenCall.live, pc] at ht
    exact absurd ht nofun

/-- A call that has obtained a token ends withdrawing its registration, or interrupted
    before. -/
theorem ListenCall.Step.ends {c : CallId} {call : ListenCall C Update Metadata} {e : ListenEvent}
    {pc : ListenPc C.Token Update} (h : call.Step c m e a m' pc) {t : C.Token}
    {o : Outcome Update Update} (hpc : pc = .ended (some t) o) : call.pc = pc ∨
      m'.backend = (C.unregister m.backend call.session call.key (some t)).2 ∨
      e = .interrupt ∧ m'.backend = m.backend ∧ ∃ o', call.pc = .finalizing t o' := by
  cases h with
  | unregister pc =>
    cases hpc
    exact .inr (.inl rfl)
  | interruptFinally pc =>
    cases hpc
    exact .inr (.inr ⟨rfl, rfl, _, pc⟩)
  | callback => exact .inl rfl
  | _ => exact absurd hpc nofun

/-- The condition that a step does not interrupt the clean-up of a registration that
    is still there. -/
def Uncut (s : State C Update Metadata) (l : Label C Update Metadata) : Prop :=
  ∀ c call t o, l = .listen c .interrupt → s.listens c = some call → call.pc = .finalizing t o →
    C.current s.shared.backend call.key ≠ some t

/-- The registrations stay those of calls that have not ended. -/
theorem Step.owned (h : Step s l s') (hi : Uncut s l) (ho : s.Owned) : s'.Owned := by
  intro k t hcur
  rcases h.current_cases hcur with hcur₀ | ⟨c, call, _, _, _, hk, hc', _⟩
  · obtain ⟨c, call, hc, rfl, ht⟩ := ho k t hcur₀
    rcases h.listen_next hc with ⟨hc', _⟩ | ⟨e, a, pc, hl, _, hst, hc'⟩
    · exact ⟨c, call, hc', rfl, ht⟩
    · rcases hst.live ht with ht' | hb | ⟨rfl, o, hpc⟩
      · exact ⟨c, _, hc', rfl, ht'⟩
      · rw [hb] at hcur
        exact absurd hcur ListenerCoordinator.current_unregister_ne
      · exact absurd hcur₀ (hi c call t o hl hc hpc)
  · exact ⟨c, _, hc', hk, rfl⟩

/-- The keys of the calls that have ended stay clean, unless a token they obtained is
    issued again. -/
theorem Step.clean (h : Step s l s') (hi : Uncut s l)
    (hreg : ∀ c call t, l = .listen c .register → s.listens c = some call →
      C.Registers s.shared.backend call.session call.key t s'.shared.backend →
        ∀ c' call' o, s.listens c' = some call' → call'.key = call.key →
          call'.pc ≠ .ended (some t) o)
    (hs : s.Clean) : s'.Clean := by
  -- A call that had ended before the step.
  have hold : ∀ c call t o, s.listens c = some call → call.pc = .ended (some t) o →
      C.current s'.shared.backend call.key ≠ some t := by
    intro c call t o hc hpc hcur
    rcases h.current_cases hcur with hcur₀ | ⟨c₁, call₁, hl, hc₁, _, hk, _, reg⟩
    · exact hs c call t o hc hpc hcur₀
    · exact hreg c₁ call₁ t hl hc₁ (hk ▸ reg) c call o hc hk.symm hpc
  intro c call' t o hc' hpc
  rcases h.listen_cases hc' with
    ⟨hc, _⟩ | ⟨_, _, _, _, _, _, _, rfl⟩ | ⟨call, e, a, pc, hc, hl, _, hst, rfl⟩
  · exact hold c call' t o hc hpc
  · exact absurd hpc nofun
  · rcases hst.ends hpc with he | hb | ⟨rfl, hb, o', hpc'⟩
    · exact hold c call t o hc (he.trans hpc)
    · rw [hb]
      exact ListenerCoordinator.current_unregister_ne
    · rw [hb]
      exact hi c call t o' hl hc hpc'

/-! ### One listener, in memory -/

section Memory

omit [DecidableEq Sess]

variable {s : State memoryCoordinator Update Metadata} {k : ListenerKey}

/-- The condition that no task is cancelled while it waits, in the `finally` block of
    `listen`, for the chat lock under which to withdraw its registration, and that the
    counter does not give a token again that a call that has ended obtained for the key
    (which it only may after a stop). -/
def CleansUp (s : State memoryCoordinator Update Metadata)
    (l : Label memoryCoordinator Update Metadata) : Prop :=
  Uncut s l ∧ ∀ c call, l = .listen c .register → s.listens c = some call →
    s.data call.key = none → ∀ c' call' o, s.listens c' = some call' → call'.key = call.key →
      call'.pc ≠ .ended (some (MemoryListenerCoordinator.counter s.shared.backend)) o

theorem CleansUp.of_ne {l : Label memoryCoordinator Update Metadata}
    (hint : ∀ c, l ≠ .listen c .interrupt) (hreg : ∀ c, l ≠ .listen c .register) : CleansUp s l :=
  ⟨fun c _ _ _ h => absurd h (hint c), fun c _ h => absurd h (hreg c)⟩

/-- A step keeps the keys of the calls that have ended clean where it meets the
    condition, and only there. -/
theorem Step.cleansUp_iff {s' : State memoryCoordinator Update Metadata}
    {l : Label memoryCoordinator Update Metadata} (h : Step s l s') (hs : s.Clean) :
    CleansUp s l ↔ s'.Clean := by
  constructor
  · rintro ⟨hi, hreg⟩
    refine h.clean hi (fun c call t hl hc reg => ?_) hs
    -- The token issued is the one the counter gives.
    obtain rfl := MemoryListenerCoordinator.eq_counter_of_register reg
    exact hreg c call hl hc (MemoryListenerCoordinator.register_eq_some reg).1
  · intro hs'
    constructor
    · rintro c call t o rfl hc hpc
      cases h with
      | listen running step =>
        rw [hc, Option.some.injEq] at running
        subst running
        cases step with
        | interruptFinally pc =>
          rw [hpc] at pc
          cases pc
          exact hs' c { call with pc := .ended (some t) (.raised .cancelledError) } t _
            (Function.update_self ..) rfl
        | interruptWait pc | interruptLock pc => exact absurd (hpc.symm.trans pc) nofun
    · rintro c call rfl hc hdata c' call' o hc' hk hpc'
      cases h with
      | listen running step =>
        rw [hc, Option.some.injEq] at running
        subst running
        cases step with
        | register pc reg =>
          have hne : c' ≠ c := by
            rintro rfl
            rw [hc, Option.some.injEq] at hc'
            rw [hc', hpc'] at pc
            exact absurd pc nofun
          refine hs' c' call' _ o ((Function.update_of_ne hne ..).trans hc') hpc' ?_
          have hcur := ListenerCoordinator.current_register reg
          rw [Shared.setBackend_backend, hcur, hk, Function.update_self,
            MemoryListenerCoordinator.eq_counter_of_register reg]
        | registerFails _ reg => exact absurd hdata (memoryCoordinator.register_taken reg)

/-- In the runs under the condition, the registrations are those of calls that have not
    ended. -/
theorem owned_of_reachable
    (h : (listenerLts memoryCoordinator Update Metadata).ReachableUnder CleansUp s) :
    s.Owned ∧ s.Clean := by
  refine h.invariant (I := fun s => s.Owned ∧ s.Clean) ?_ fun s l s' ⟨ho, hs⟩ hp hst =>
    ⟨Step.owned hst hp.1 ho, (Step.cleansUp_iff hst hs).1 hp⟩
  rintro _ rfl
  exact ⟨fun _ _ h => absurd h nofun, fun _ _ _ _ h => absurd h nofun⟩

/-- A key that is free can be listened on. -/
theorem exists_run_waiting (hdata : s.data k = none) (hn : s.shared.listeners () k = none)
    (hfree : s.locked k.chatId = false) {c : CallId} (hc : s.listens c = none)
    (metadata : Option Metadata) : ∃ s' t, (listenerLts _ _ _).Run s s' ∧
      s'.listens c = some ⟨(), k, metadata, .reject, .waiting t .none⟩ := by
  have hlook : memoryCoordinator.registered s.shared.backend () k none = false := by
    rw [ListenerCoordinator.registered_none_eq]
    exact congrArg Option.isSome hdata
  obtain ⟨b, hreg⟩ := MemoryListenerCoordinator.register_of_free hdata
  exact ⟨_, _, run_listen c () k metadata .reject (fun _ _ _ _ => trivial) hc hfree hlook hn hreg,
    Function.update_self ..⟩

/-- `listen` leaves no registration behind. In the runs whose tasks are not cancelled
    while they wait to withdraw their registration, the key of a call that has ended is
    not registered with its token. And a key without a call that has a token and has not
    ended is free, so that it can be listened on under `REJECT`. A step that does not
    meet the condition leaves a registration behind. -/
theorem listen_cleans_up :
    (∀ s, (listenerLts memoryCoordinator Update Metadata).ReachableUnder CleansUp s →
      s.Clean ∧
      ∀ k, (∀ c call, s.listens c = some call → call.key = k → call.live = none) →
        s.data k = none ∧ s.shared.listeners () k = none ∧
        (s.locked k.chatId = false → ∀ c metadata, s.listens c = none →
          ∃ s' t, (listenerLts _ _ _).Run s s' ∧
            s'.listens c = some ⟨(), k, metadata, .reject, .waiting t .none⟩)) ∧
    ∀ (s s' : State memoryCoordinator Update Metadata) l, s.Clean → Step s l s' →
      (CleansUp s l ↔ s'.Clean) := by
  refine ⟨fun s h => ?_, fun s s' l hs hst => hst.cleansUp_iff hs⟩
  obtain ⟨howned, hclean⟩ := owned_of_reachable h
  refine ⟨hclean, fun k hlive => ?_⟩
  have hdata : s.data k = none := by
    cases hd : s.data k with
    | none => rfl
    | some t =>
      obtain ⟨c, call, hc, hk, ht⟩ := howned k t hd
      exact absurd ((hlive c call hc hk).symm.trans ht) nofun
  have hn : s.shared.listeners () k = none := by
    cases hl : s.shared.listeners () k with
    | none => rfl
    | some listener =>
      obtain ⟨call, t, i, hc, hpc, _, hk, _⟩ := waited_of_reachable h () k listener hl
      have := hlive _ call hc hk
      rw [ListenCall.live, hpc] at this
      exact absurd this nofun
  exact ⟨hdata, hn, fun hfree c metadata hc => exists_run_waiting hdata hn hfree hc metadata⟩

/-- A call that times out, and cleans up. -/
theorem listen_cleans_up_timeout : ∃ s : State memoryCoordinator String Unit,
    ∃ call o, s.listens 0 = some call ∧ call.pc = .ended (some (0 : ℕ)) o ∧
      s.data call.key ≠ some (0 : ℕ) := by
  have h₀ : (listenerLts memoryCoordinator String Unit).ReachableUnder CleansUp (.init ..) :=
    .init rfl
  have h₁ := h₀.tail (l := Label.startListen 0 () ⟨100, none, none⟩ none .reject)
    (by exact .of_ne nofun nofun) (.startListen rfl)
  have h₂ := h₁.tail (by exact .of_ne nofun nofun) (.listen (c := 0) rfl (.lock rfl) rfl)
  have h₃ := h₂.tail (by exact .of_ne nofun nofun) (.listen (c := 0) rfl (.lookup rfl) trivial)
  have h₄ := h₃.tail (by exact .of_ne nofun nofun)
    (.listen (c := 0) rfl (.proceed rfl rfl) trivial)
  have h₅ := h₄.tail (l := .listen 0 .register) ⟨fun _ _ _ _ h => absurd h nofun,
    fun _ _ _ _ _ c' call' _ hc' _ => by
      -- There is no other call.
      by_cases hc : c' = 0
      · subst hc
        obtain rfl := Option.some.inj hc'
        exact nofun
      · simp [State.init, Function.update_of_ne hc] at hc'⟩
    (.listen rfl (.register rfl rfl) trivial)
  have h₆ := h₅.tail (by exact .of_ne nofun nofun) (.listen (c := 0) rfl (.store rfl) trivial)
  have h₇ := h₆.tail (by exact .of_ne nofun nofun) (.listen (c := 0) rfl (.timer rfl) trivial)
  have h₈ := h₇.tail (by exact .of_ne nofun nofun)
    (.listen (c := 0) rfl (.wake rfl (.inl nofun)) trivial)
  have h₉ := h₈.tail (by exact .of_ne nofun nofun) (.listen (c := 0) rfl (.relock rfl) rfl)
  have h₁₀ := h₉.tail (by exact .of_ne nofun nofun)
    (.listen (c := 0) rfl (.unregister rfl) trivial)
  obtain ⟨s, h, call, o, hc, hpc⟩ : ∃ s : State memoryCoordinator String Unit,
      (listenerLts memoryCoordinator String Unit).ReachableUnder CleansUp s ∧
        ∃ call o, s.listens 0 = some call ∧ call.pc = .ended (some (0 : ℕ)) o :=
    ⟨_, h₁₀, _, _, rfl, rfl⟩
  exact ⟨s, call, o, hc, hpc, (listen_cleans_up.1 s h).1 0 call _ o hc hpc⟩

/-- While `resolve` awaits its bypass hook under the chat lock, the listener it found
    times out, and the task is cancelled as it waits for the lock to clean up: the key
    stays registered with the token of a call that has ended. -/
theorem listen_leaks : ¬∀ s : State memoryCoordinator String Unit,
    (listenerLts memoryCoordinator String Unit).ReachableUnder NoStop s →
      ∀ c call t o, s.listens c = some call → call.pc = .ended (some t) o →
        s.data call.key ≠ some t := by
  intro hclaim
  have h₀ : (listenerLts memoryCoordinator String Unit).ReachableUnder NoStop (.init ..) :=
    .init rfl
  have h₁ := h₀.run (run_listen 0 () ⟨100, none, none⟩ none .reject
    (fun _ _ _ hl => hl.ne_stop) rfl rfl rfl rfl rfl)
  -- An update comes, up to the bypass hook.
  have h₂ := h₁.run (run_resolve 0 () "hello" (fun _ _ _ hl => hl.ne_stop) rfl rfl
    (ListenerKey.subKeys_chat 100) rfl rfl)
  -- The listener times out, and its task is cancelled at the lock.
  have h₃ := h₂.tail (by exact nofun) (.listen (c := 0) rfl (.timer rfl) trivial)
  have h₄ := h₃.tail (by exact nofun) (.listen (c := 0) rfl (.wake rfl (.inl nofun)) trivial)
  have h₅ := h₄.tail (by exact nofun) (.listen (c := 0) rfl (.interruptFinally rfl) trivial)
  exact hclaim _ h₅ 0 _ _ _ rfl rfl rfl

end Memory

end Pyroflow
