import Pyroflow.Coordinator.Memory
import Pyroflow.Dispatcher
import Pyroflow.Listener.Invariant
import Pyroflow.Listener.Runs

/-!
# The disposition of an update

`handle_listen` takes it that `resolve` has delivered the update if it returns. So
it has, when it returns from its loop: then exactly one future holds the update,
as set by this call (`State.Delivered`). But `resolve` also returns when it finds
no listener in the map at all, having skipped the whole rest of its body, and
nobody gets the update (`disposes_empty`). Where that test finds a listener, each
update is either delivered or goes on to the handler groups (`disposes_exclusively`).

An update is delivered when it completes a future; whether the call that waits for it
then returns it is another matter (`delivered_is_returned`). Giving back the chat lock is
taken not to fail: with a Redis lock that has expired it could raise after the delivery.
-/

namespace Pyroflow

open Dispatcher

variable {Sess : Type} {C : ListenerCoordinator Sess} {Update Metadata : Type}

/-- The condition that the call `r` of `resolve` finds a listener in the map of its
    session, when it has extracted the key of its update. -/
def FindsListeners (r : CallId) (s : State C Update Metadata)
    (l : Label C Update Metadata) : Prop :=
  ∀ key call, l = .resolve r (.key (some key)) → s.resolves r = some call →
    s.shared.listeners call.session ≠ fun _ => none

theorem FindsListeners.of_ne {r : CallId} {s : State C Update Metadata}
    {l : Label C Update Metadata} (h : ∀ key, l ≠ .resolve r (.key (some key))) :
    FindsListeners r s l :=
  fun key _ hl => absurd hl (h key)

/-- The futures that hold a result were set by a call of `resolve`, which has returned,
    with its update, and which has set no other. -/
structure State.Delivered (s : State C Update Metadata) : Prop where
  returned : ∀ {c update r}, s.shared.futures c = .result update r → ∃ call,
    s.resolves r = some call ∧ call.update = update ∧ call.pc = .ended (.returned ())
  unique : ∀ {c c' update update' r}, s.shared.futures c = .result update r →
    s.shared.futures c' = .result update' r → c = c'

/-- The disposition of the update of the call `r` of `resolve`, which has ended with `o`. -/
structure State.Disposed (s : State C Update Metadata) (r : CallId)
    (call : ResolveCall C Update Metadata) (o : Outcome Update Unit) : Prop where
  /-- Its propagation is stopped if and only if the call has completed exactly one future
      with it. -/
  stops_iff : handleListen (some o) = .error .stopPropagation ↔
    ∃! c, s.shared.futures c = .result call.update r
  /-- If the call has completed a future, it was with its update, and no handler gets it. -/
  delivered : ∀ c update, s.shared.futures c = .result update r → update = call.update ∧
    ∀ (H : Type) history (groups : List (List (HandlerRun H))),
      handleUpdate (handleListen (some o)) history groups = ⟨[], [], .error .stopPropagation⟩
  /-- If it has not, it has raised, and the update goes on to the handler groups, unless the
      task was cancelled. -/
  goes_on : (∀ c update, s.shared.futures c ≠ .result update r) → ∃ exc, o = .raised exc ∧
    (exc = .cancelledError ∨ ∀ (H : Type) history (groups : List (List (HandlerRun H))),
      handleUpdate (handleListen (some o)) history groups = handleGroups history groups)

variable [DecidableEq Sess] {s s' : State C Update Metadata} {l : Label C Update Metadata}
  {P : State C Update Metadata → Label C Update Metadata → Prop} {r : CallId}

/-- A call of `resolve` that has ended stays as it is. -/
theorem Step.resolve_ended {call : ResolveCall C Update Metadata} {o : Outcome Update Unit}
    (h : Step s l s') (hr : s.resolves r = some call) (hpc : call.pc = .ended o) :
    s'.resolves r = some call := by
  by_cases hl : l.actor = some (.resolve r)
  · cases h with
    | startResolve new =>
      cases hl
      exact absurd (hr.symm.trans new) nofun
    | resolve running step =>
      cases hl
      obtain rfl := Option.some.inj (running.symm.trans hr)
      cases step with
      | interrupt pc =>
        rw [hpc] at pc
        rcases pc with pc | pc | ⟨_, pc⟩ <;> exact absurd pc nofun
      | _ pc => exact absurd (hpc.symm.trans pc) nofun
    | _ => exact absurd hl nofun
  · exact (h.same_of_ne hl).trans hr

/-- Where a result comes from: it was there, or it is that of the call of `resolve`
    taking the step, which returns. -/
theorem Step.result_cases {c : CallId} {update : Update} (h : Step s l s')
    (hc : s'.shared.futures c = .result update r) : s.shared.futures c = .result update r ∨
      ∃ call key k listener, s.resolves r = some call ∧ call.update = update ∧
        call.pc = .bypassing key k listener ∧ listener.future = c ∧
        s'.resolves r = some { call with pc := .ended (.returned ()) } := by
  rcases h.futures_cases c with he | ⟨hp, hcomp⟩
  · exact .inl (he.symm.trans hc)
  rw [hc] at hcomp
  cases hcomp with
  | deliver hr pc hf =>
    refine .inr ⟨_, _, _, _, hr, rfl, pc, hf, ?_⟩
    cases h with
    | resolve running step =>
      obtain rfl := Option.some.inj (running.symm.trans hr)
      cases step with
      | deliver => exact Function.update_self ..
      | deliverInvalid pc' done =>
        rw [pc, ResolvePc.bypassing.injEq] at pc'
        obtain ⟨_, _, rfl⟩ := pc'
        exact absurd (hf ▸ hp) done

theorem Step.delivered (h : Step s l s') (hd : s.Delivered) : s'.Delivered := by
  constructor
  · intro c update r hc
    rcases h.result_cases hc with hc | ⟨call, _, _, _, _, hu, _, _, hr'⟩
    · obtain ⟨call, hr, hu, hpc⟩ := hd.returned hc
      exact ⟨call, h.resolve_ended hr hpc, hu, hpc⟩
    · exact ⟨_, hr', hu, rfl⟩
  · intro c c' update update' r hc hc'
    -- A call that delivers had not returned, and so had completed no future.
    have hnew {c : CallId} {update : Update} {call key k listener}
        (hr : s.resolves r = some call) (hpc : call.pc = .bypassing key k listener)
        (hc : s.shared.futures c = .result update r) : False := by
      obtain ⟨call', hr', _, hpc'⟩ := hd.returned hc
      obtain rfl := Option.some.inj (hr.symm.trans hr')
      exact absurd (hpc.symm.trans hpc') nofun
    rcases h.result_cases hc with hc | ⟨call, _, _, _, hr, _, hpc, hf, _⟩ <;>
      rcases h.result_cases hc' with hc' | ⟨call', _, _, _, hr', _, hpc', hf', _⟩
    · exact hd.unique hc hc'
    · exact (hnew hr' hpc' hc).elim
    · exact (hnew hr hpc hc').elim
    · obtain rfl := Option.some.inj (hr.symm.trans hr')
      rw [hpc, ResolvePc.bypassing.injEq] at hpc'
      obtain ⟨_, _, rfl⟩ := hpc'
      exact hf.symm.trans hf'

theorem delivered_of_reachable (h : (listenerLts C Update Metadata).ReachableUnder P s) :
    s.Delivered := by
  refine h.invariant ?_ fun _ _ _ hd _ hst => Step.delivered hst hd
  rintro _ rfl
  exact ⟨fun h => absurd h nofun, fun h => absurd h nofun⟩

/-- A call of `resolve` that returns has delivered its update, or has found no listener. -/
theorem Step.returned_cases {call : ResolveCall C Update Metadata} (h : Step s l s')
    (hr : s'.resolves r = some call) (hpc : call.pc = .ended (.returned ())) :
    s.resolves r = some call ∨ (∃ c, s'.shared.futures c = .result call.update r) ∨
      ¬FindsListeners r s l := by
  rcases h.resolve_cases hr with
    ⟨hr, _⟩ | ⟨_, _, _, _, _, rfl⟩ | ⟨call, e, a, pc, hr₀, rfl, _, hs, rfl⟩
  · exact .inl hr
  · exact absurd hpc nofun
  generalize s'.shared = m' at hs
  cases hs with
  | noListeners _ none => exact .inr (.inr fun hl => hl _ _ rfl hr₀ none)
  | deliver => exact .inr (.inl ⟨_, Function.update_self ..⟩)
  | _ => exact absurd hpc nofun

/-- Where it finds listeners, a call of `resolve` that has returned has delivered. -/
theorem delivers_of_returned
    (h : (listenerLts C Update Metadata).ReachableUnder (FindsListeners r) s)
    {call : ResolveCall C Update Metadata} (hr : s.resolves r = some call)
    (hpc : call.pc = .ended (.returned ())) : ∃ c, s.shared.futures c = .result call.update r := by
  refine h.invariant (I := fun s => ∀ call, s.resolves r = some call →
    call.pc = .ended (.returned ()) → ∃ c, s.shared.futures c = .result call.update r)
    (by rintro _ rfl _ hr; exact absurd hr nofun) ?_ call hr hpc
  intro s l s' ih hp hst call hr hpc
  rcases hst.returned_cases hr hpc with hr | h | h
  · obtain ⟨c, hc⟩ := ih call hr hpc
    exact ⟨c, (hst.done_stays (by rw [hc]; exact nofun)).trans hc⟩
  · exact h
  · exact absurd hp h

omit [DecidableEq Sess] in
/-- A call that has ended has disposed of its update if and only if, having returned, it
    has delivered it. -/
theorem State.Delivered.disposed_iff (hd : s.Delivered) {call : ResolveCall C Update Metadata}
    {o : Outcome Update Unit} (hr : s.resolves r = some call) (hpc : call.pc = .ended o) :
    s.Disposed r call o ↔
      (o = .returned () → ∃ c, s.shared.futures c = .result call.update r) := by
  -- A call that has delivered has returned.
  have hret {c : CallId} {update : Update} (hc : s.shared.futures c = .result update r) :
      update = call.update ∧ o = .returned () := by
    obtain ⟨call', hr', hu, hpc'⟩ := hd.returned hc
    obtain rfl := Option.some.inj (hr.symm.trans hr')
    rw [hpc, ResolvePc.ended.injEq] at hpc'
    exact ⟨hu.symm, hpc'⟩
  constructor
  · intro h ho
    exact (h.stops_iff.1 (handleListen_eq_stop_iff.2 ho)).exists
  · intro h
    refine ⟨?_, fun c update hc => ?_, fun hnone => ?_⟩
    · rw [handleListen_eq_stop_iff]
      constructor
      · intro ho
        obtain ⟨c, hc⟩ := h ho
        exact ⟨c, hc, fun c' hc' => hd.unique hc' hc⟩
      · rintro ⟨c, hc, _⟩
        exact (hret hc).2
    · obtain ⟨hu, rfl⟩ := hret hc
      exact ⟨hu, fun _ _ _ => rfl⟩
    · rcases o with ⟨⟩ | exc
      · obtain ⟨c, hc⟩ := h rfl
        exact absurd hc (hnone c _)
      · by_cases hexc : exc = .cancelledError
        · exact ⟨exc, rfl, .inl hexc⟩
        · refine ⟨exc, rfl, .inr fun _ _ _ => ?_⟩
          rw [handleListen_eq_ok_iff.2 ⟨exc, rfl, hexc⟩, handleUpdate]

/-- A call that finds no listener returns, and has completed no future. -/
theorem Step.returned_of_empty (h : Step s l s') (hd : s.Delivered)
    (hl : ¬FindsListeners r s l) : ∃ call, s'.resolves r = some call ∧
      call.pc = .ended (.returned ()) ∧ ∀ c update, s'.shared.futures c ≠ .result update r := by
  rw [FindsListeners] at hl
  push Not at hl
  obtain ⟨key, call, rfl, hr, hempty⟩ := hl
  cases h with
  | resolve running step =>
    obtain rfl := Option.some.inj (running.symm.trans hr)
    cases step with
    | key _ listeners => exact absurd hempty listeners
    | noListeners pc =>
      refine ⟨_, Function.update_self .., rfl, fun c update hc => ?_⟩
      obtain ⟨call', hr', _, hpc'⟩ := hd.returned hc
      obtain rfl := Option.some.inj (hr.symm.trans hr')
      exact absurd (pc.symm.trans hpc') nofun

/-- A call that has returned completes no future any more. -/
theorem Step.no_result {call : ResolveCall C Update Metadata} {o : Outcome Update Unit}
    (h : Step s l s') (hr : s.resolves r = some call) (hpc : call.pc = .ended o)
    (hnone : ∀ c update, s.shared.futures c ≠ .result update r) :
    ∀ c update, s'.shared.futures c ≠ .result update r := by
  intro c update hc
  rcases h.result_cases hc with hc | ⟨call', _, _, _, hr', _, hpc', _⟩
  · exact hnone c update hc
  · obtain rfl := Option.some.inj (hr.symm.trans hr')
    exact absurd (hpc.symm.trans hpc') nofun

/-- `resolve` raises `CancelledError` when its task is cancelled only. -/
theorem not_cancelledError
    (h : (listenerLts C Update Metadata).ReachableUnder (fun _ l => l ≠ .resolve r .interrupt) s)
    {call : ResolveCall C Update Metadata} (hr : s.resolves r = some call) :
    call.pc ≠ .ended (.raised .cancelledError) := by
  refine h.invariant (I := fun s => ∀ call, s.resolves r = some call →
    call.pc ≠ .ended (.raised .cancelledError))
    (by rintro _ rfl _ hr; exact absurd hr nofun) ?_ call hr
  intro s l s' ih hp hst call hr
  rcases hst.resolve_cases hr with
    ⟨hr, _⟩ | ⟨_, _, _, _, _, rfl⟩ | ⟨call, e, a, pc, hr₀, rfl, _, hs, rfl⟩
  · exact ih call hr
  · exact nofun
  · generalize s'.shared = m' at hs
    cases hs with
    | interrupt | interruptBypass => exact absurd rfl hp
    | _ => exact nofun

/-- Exclusive disposition of an update. A call of `resolve` that finds listeners when it
    has extracted its key stops the propagation of its update if and only if it has
    completed a future with it, one and no other; else the update goes on to the handler
    groups, unless the task of the call was cancelled. A call that finds none never does so:
    the propagation is stopped, and nobody gets the update. -/
theorem disposes_exclusively (r : CallId) :
    (∀ s : State C Update Metadata,
      (listenerLts C Update Metadata).ReachableUnder (FindsListeners r) s →
        ∀ call o, s.resolves r = some call → call.pc = .ended o → s.Disposed r call o) ∧
    (∀ s : State C Update Metadata,
      (listenerLts C Update Metadata).ReachableUnder (fun _ l => l ≠ .resolve r .interrupt) s →
        ∀ call, s.resolves r = some call → call.pc ≠ .ended (.raised .cancelledError)) ∧
    ∀ (s s₁ s₂ : State C Update Metadata) l, (listenerLts C Update Metadata).Reachable s →
      Step s l s₁ → ¬FindsListeners r s l → (listenerLts C Update Metadata).Run s₁ s₂ →
        ∃ call o, s₂.resolves r = some call ∧ call.pc = .ended o ∧ ¬s₂.Disposed r call o := by
  refine ⟨fun s h call o hr hpc => ?_, fun s h call hr => not_cancelledError h hr,
    fun s s₁ s₂ l h hst hl hrun => ?_⟩
  · refine ((delivered_of_reachable h).disposed_iff hr hpc).2 ?_
    rintro rfl
    exact delivers_of_returned h hr hpc
  · obtain ⟨call, hr, hpc, hnone⟩ := hst.returned_of_empty (delivered_of_reachable h) hl
    -- The call stays as it is, and so do the futures, as far as it is concerned.
    have hs₂ : s₂.resolves r = some call ∧ ∀ c update, s₂.shared.futures c ≠ .result update r :=
      hrun.invariant (I := fun s₂ => s₂.resolves r = some call ∧
        ∀ c update, s₂.shared.futures c ≠ .result update r) ⟨hr, hnone⟩
        fun _ _ _ ⟨hr, hnone⟩ _ hst =>
          ⟨Step.resolve_ended hst hr hpc, Step.no_result hst hr hpc hnone⟩
    refine ⟨call, _, hs₂.1, hpc, fun hdisp => ?_⟩
    obtain ⟨c, hc, _⟩ := hdisp.stops_iff.1 rfl
    exact hs₂.2 c _ hc

/-- An update that a listener waits for: it is delivered, and no handler gets it. -/
theorem disposes_exclusively_delivered : ∃ s : State memoryCoordinator String Unit,
    (listenerLts memoryCoordinator String Unit).ReachableUnder (FindsListeners 0) s ∧
    s.shared.futures 0 = .result "hello" 0 ∧ ∃ call o, s.resolves 0 = some call ∧
      call.pc = .ended o ∧ s.Disposed 0 call o := by
  have h₀ : (listenerLts memoryCoordinator String Unit).ReachableUnder (FindsListeners 0)
    (.init ..) := .init rfl
  have h₁ := h₀.run (run_listen 0 () ⟨100, none, none⟩ none .reject
    (fun _ _ _ hl => .of_ne fun _ => hl.ne_resolve 0 _) rfl rfl rfl rfl rfl)
  have h₂ := h₁.run (run_resolve 0 () "hello"
    (fun _ _ hm _ _ _ _ _ h => absurd
      (congrFun ((congrArg (Shared.listeners · ()) hm).symm.trans h) ⟨100, none, none⟩) nofun)
    rfl rfl (ListenerKey.subKeys_chat 100) rfl rfl)
  have h₃ := h₂.tail (by exact .of_ne nofun) (.resolve (r := 0) rfl (.deliver rfl rfl) trivial)
  exact ⟨_, h₃, rfl, _, _, rfl, rfl, (disposes_exclusively 0).1 _ h₃ _ _ rfl rfl⟩

/-- An update that comes while no call listens: its propagation is stopped, and nobody
    gets it. -/
theorem disposes_empty : ¬∀ s : State memoryCoordinator String Unit,
    (listenerLts memoryCoordinator String Unit).Reachable s →
      ∀ r call o, s.resolves r = some call → call.pc = .ended o →
        (handleListen (some o) = .error .stopPropagation ↔
          ∃! c, s.shared.futures c = .result call.update r) := by
  intro hclaim
  have h₀ : (listenerLts memoryCoordinator String Unit).Reachable (.init ..) := .init rfl
  have h₁ := h₀.tail (l := Label.startResolve 0 () "hello") trivial (.startResolve rfl)
  have h₂ := h₁.tail trivial (.resolve (r := 0) rfl (.listenable rfl) trivial)
  have h₃ := h₂.tail (l := Label.resolve 0 (.key (some ⟨100, none, none⟩))) trivial
    (.resolve rfl (.noListeners rfl rfl) trivial)
  obtain ⟨c, hc, _⟩ := (hclaim _ h₃ 0 _ _ rfl rfl).1 rfl
  exact absurd hc nofun

end Pyroflow
