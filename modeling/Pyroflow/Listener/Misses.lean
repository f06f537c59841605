import Pyroflow.Coordinator.Redis
import Pyroflow.Listener.Invariant
import Pyroflow.Listener.Runs

/-!
# The hook of a miss

A call of `resolve` that finds no listener goes to `on_unresolved`, whose documentation
says that the chat lock is held. The hook is awaited after the `async with` block, so that
the last step of the scan has given the lock back (`Step.hook_cases`): a call of `resolve`
is never in its hook with the chat lock held (`hook_without_lock`). Nothing keeps a call of
`listen` from registering its listener in the meantime (`exists_run_registered`), under a
key that the scan has found vacant (`hook_races_listen`).
-/

namespace Pyroflow

variable {Sess : Type} {C : ListenerCoordinator Sess} {Update Metadata : Type}
  [DecidableEq Sess] {s s' : State C Update Metadata} {l : Label C Update Metadata} {r : CallId}
  {call : ResolveCall C Update Metadata} {key : ListenerKey}

/-- A call comes to its hook by leaving the critical section. -/
theorem Step.hook_cases (h : Step s l s') (hr : s'.resolves r = some call)
    (hpc : call.pc = .unresolved key) :
    s.resolves r = some call ∨
      l = .resolve r .scan ∧ s.holds (.resolve r) = some key.chatId ∧
        s'.locked = Function.update s.locked key.chatId false := by
  by_cases hl : l.actor = some (.resolve r)
  · cases h with
    | startResolve =>
      cases hl
      simp only [Function.update_self, Option.some.injEq] at hr
      subst hr
      cases hpc
    | resolve running step enabled =>
      cases hl
      simp only [Function.update_self, Option.some.injEq] at hr
      subst hr
      cases step with
      | scanned pc =>
        cases hpc
        exact .inr ⟨rfl, by simp [State.holds, running, ResolveCall.holds, pc], rfl⟩
      | _ => cases hpc
    | _ => cases hl
  · exact .inl ((h.same_of_ne hl).symm.trans hr)

/-- A run that comes to the hook of a call passes the step that gives the chat lock back. -/
theorem exists_release_of_hook {s₀ : State C Update Metadata}
    (hinit : (listenerLts C Update Metadata).init s₀)
    (hrun : (listenerLts C Update Metadata).Run s₀ s) (hr : s.resolves r = some call)
    (hpc : call.pc = .unresolved key) :
    ∃ s₁ s₂, (listenerLts C Update Metadata).Run s₀ s₁ ∧ Step s₁ (.resolve r .scan) s₂ ∧
      (listenerLts C Update Metadata).Run s₂ s ∧ s₁.holds (.resolve r) = some key.chatId ∧
      s₂.resolves r = some call ∧ s₂.locked key.chatId = false := by
  -- By induction on the run: its last step is that one, or the call was in its hook before.
  induction hrun with
  | refl =>
    obtain rfl := hinit
    exact absurd hr nofun
  | tail hrun _ hst ih =>
    rcases Step.hook_cases hst hr hpc with hr' | ⟨rfl, hh, hl⟩
    · obtain ⟨s₁, s₂, h₁, h₂, h₃, hh, hc, hl⟩ := ih hr'
      exact ⟨s₁, s₂, h₁, h₂, h₃.tail trivial hst, hh, hc, hl⟩
    · exact ⟨_, _, hrun, hst, .refl, hh, hr, by rw [hl, Function.update_self]⟩

/-- While a call of `resolve` stays where it is, a call of `listen` on a free key comes to
    wait, its listener pending and registered. -/
theorem exists_run_registered (h : (listenerLts C Update Metadata).Reachable s) {c : CallId}
    {σ : Sess} {sub : ListenerKey} (metadata : Option Metadata) (policy : DuplicatePolicy)
    {t : C.Token} {b : C.State} (hc : s.listens c = none) (hfree : s.locked sub.chatId = false)
    (hlook : C.registered s.shared.backend σ sub none = false)
    (hl : s.shared.listeners σ sub = none) (hreg : C.Registers s.shared.backend σ sub t b) :
    ∃ s', (listenerLts C Update Metadata).Run s s' ∧ s'.resolves = s.resolves ∧
      s'.shared.listeners σ sub = some ⟨sub, metadata, c, some t⟩ ∧
      s'.shared.futures c = .pending ∧ C.current s'.shared.backend sub = some t := by
  refine ⟨_, run_listen c σ sub metadata policy (fun _ _ _ _ => trivial) hc hfree hlook hl hreg,
    rfl, ?_, ?_, ?_⟩
  · rw [Shared.setListener_apply, if_pos ⟨rfl, rfl⟩]
  · exact (timely_of_reachable h).pending c fun call hcall => absurd (hc.symm.trans hcall) nofun
  · rw [Shared.setListener_backend, Shared.setBackend_backend,
      ListenerCoordinator.current_register hreg, Function.update_self]

/-- A miss is never handled under the lock it was decided under. In every run that comes to
    the hook of a call of `resolve`, the step before the hook gave the chat lock back: the
    call does not hold it in the hook. And if it is free there, a call of `listen` of its
    session on any vacant sub-key can register a listener before the hook ends. -/
theorem hook_without_lock {s₀ : State C Update Metadata}
    (hinit : (listenerLts C Update Metadata).init s₀)
    (hrun : (listenerLts C Update Metadata).Run s₀ s) (hr : s.resolves r = some call)
    (hpc : call.pc = .unresolved key) :
    (∃ s₁ s₂, (listenerLts C Update Metadata).Run s₀ s₁ ∧ Step s₁ (.resolve r .scan) s₂ ∧
      (listenerLts C Update Metadata).Run s₂ s ∧ s₁.holds (.resolve r) = some key.chatId ∧
      s₂.resolves r = some call ∧ s₂.locked key.chatId = false) ∧
    s.holds (.resolve r) ≠ some key.chatId ∧
    ∀ c sub metadata t b, s.locked key.chatId = false → sub ∈ key.subKeys →
      s.listens c = none → s.shared.listeners call.session sub = none →
      C.registered s.shared.backend call.session sub none = false →
      C.Registers s.shared.backend call.session sub t b →
      ∃ s', (listenerLts C Update Metadata).Run s s' ∧ s'.resolves r = some call ∧
        ∃ listener, s'.shared.listeners call.session sub = some listener ∧
          listener = ⟨sub, metadata, c, some t⟩ ∧ s'.shared.futures listener.future = .pending ∧
          C.registered s'.shared.backend call.session sub listener.coordinatorId = true := by
  refine ⟨exists_release_of_hook hinit hrun hr hpc, ?_, ?_⟩
  · simp [State.holds, hr, ResolveCall.holds, hpc]
  · intro c sub metadata t b hfree hsub hc hl hlook hreg
    obtain ⟨s', hrun', hres, hl', hf', hcur⟩ := exists_run_registered ⟨s₀, hinit, hrun⟩ metadata
      .reject hc (ListenerKey.chatId_of_mem_subKeys hsub ▸ hfree) hlook hl hreg
    exact ⟨s', hrun', hres ▸ hr, _, hl', rfl, hf', ListenerCoordinator.registered_some_iff.2 hcur⟩

/-- A call of `resolve` that comes to its hook, in a chat without listeners. -/
theorem exists_hook : ∃ s : State (redisCoordinator Unit ℕ) Unit Unit, ∃ call b,
    (listenerLts (redisCoordinator Unit ℕ) Unit Unit).Reachable s ∧ s.resolves 0 = some call ∧
      call.session = () ∧ call.pc = .unresolved ⟨100, none, none⟩ ∧ s.listens 1 = none ∧
      s.locked 100 = false ∧ s.shared.listeners () ⟨100, none, none⟩ = none ∧
      (redisCoordinator Unit ℕ).registered s.shared.backend () ⟨100, none, none⟩ none = false ∧
      (redisCoordinator Unit ℕ).Registers s.shared.backend () ⟨100, none, none⟩ (1 : ℕ) b := by
  -- Another chat has a listener, so that the candidates are looked up at all.
  have h₀ : (listenerLts (redisCoordinator Unit ℕ) Unit Unit).Reachable (.init ..) := .init rfl
  have h₁ := h₀.run (run_listen 0 () ⟨200, none, none⟩ none .reject
    (fun _ _ _ _ => trivial) rfl rfl rfl rfl (t := (0 : ℕ)) ⟨id, rfl⟩)
  have h₂ := h₁.tail (l := Label.startResolve 0 () ()) trivial (.startResolve rfl)
  have h₃ := h₂.tail trivial (.resolve (r := 0) rfl (.listenable rfl) trivial)
  have h₄ := h₃.tail (l := Label.resolve 0 (.key (some ⟨100, none, none⟩))) trivial
    (.resolve rfl (.key rfl fun h => absurd (congrFun h ⟨200, none, none⟩) nofun) trivial)
  have h₅ := h₄.tail trivial (.resolve (r := 0) rfl (.lock rfl) rfl)
  have h₆ := h₅.tail trivial (.resolve (r := 0) rfl
    (.scanNone (congrArg _ (ListenerKey.subKeys_chat 100)) rfl) trivial)
  have h₇ := h₆.tail trivial (.resolve (r := 0) rfl (.scanned rfl) trivial)
  exact ⟨_, _, _, h₇, rfl, rfl, rfl, rfl, rfl, rfl, rfl, fun h => Or.elim h nofun id, rfl⟩

/-- Such a call, in a chat without listeners. -/
theorem hook_without_lock_chat : ∃ s : State (redisCoordinator Unit ℕ) Unit Unit,
    (∃ call, s.resolves 0 = some call ∧ call.pc = .unresolved ⟨100, none, none⟩) ∧
      s.holds (.resolve 0) ≠ some 100 := by
  obtain ⟨s, call, b, ⟨s₀, hinit, hrun⟩, hr, _, hpc, _⟩ := exists_hook
  exact ⟨s, ⟨call, hr, hpc⟩, (hook_without_lock hinit hrun hr hpc).2.1⟩

/-- Between the look-ups that miss and the hook, a listener is registered under the key:
    when the hook starts, it is pending. -/
theorem hook_races_listen : ∃ s s' : State (redisCoordinator Unit ℕ) Unit Unit, ∃ call listener,
    (listenerLts (redisCoordinator Unit ℕ) Unit Unit).Reachable s ∧
      s.resolves 0 = some call ∧ call.pc = .unresolved ⟨100, none, none⟩ ∧
      (∀ sub ∈ (ListenerKey.mk 100 none none).subKeys, s.shared.listeners () sub = none) ∧
      (listenerLts (redisCoordinator Unit ℕ) Unit Unit).Run s s' ∧ s'.resolves 0 = some call ∧
      s'.shared.listeners () ⟨100, none, none⟩ = some listener ∧
      s'.shared.futures listener.future = .pending ∧
      (redisCoordinator Unit ℕ).current s'.shared.backend ⟨100, none, none⟩ =
        listener.coordinatorId := by
  obtain ⟨s, call, b, h, hr, _, hpc, hnew, hfree, hl, hlook, hreg⟩ := exists_hook
  obtain ⟨s', hrun, hres, hl', hf', hcur⟩ :=
    exists_run_registered h none .reject hnew hfree hlook hl hreg
  refine ⟨s, s', call, _, h, hr, hpc, ?_, hrun, hres ▸ hr, hl', hf', hcur⟩
  rw [ListenerKey.subKeys_chat]
  exact fun sub hsub => List.mem_singleton.1 hsub ▸ hl

end Pyroflow
