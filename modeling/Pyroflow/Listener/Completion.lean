import Pyroflow.Coordinator.Memory
import Pyroflow.Listener.Runs
import Pyroflow.Listener.Window

/-!
# The completion of futures

Neither `resolve` nor `_cancel` looks whether the listener it finds is done. It may
be: it stays in the map until the done-callback of its future runs, and a timer may
fire while `resolve` awaits the bypass hook. The completion of a future that is done
raises `InvalidStateError`; `completes_pending` says exactly when it does, and
`completes_done` shows two updates in a row doing it.

A timer of `wait_for` that fires before the waiting call is woken up makes it raise
`ListenerTimeout`, even though its future holds an update by then. An update is not
lost as long as no timer does (`delivered_is_returned`), and is lost if one does
(`delivered_times_out`).
-/

namespace Pyroflow

variable {Sess : Type} {C : ListenerCoordinator Sess} {Update Metadata : Type}

/-! ### `InvalidStateError` -/

/-- The call of an owner has raised `InvalidStateError`. -/
def State.RaisedInvalid (s : State C Update Metadata) : Owner → Prop
  | .listen c => ∃ call, s.listens c = some call ∧ call.pc = .ended none (.raised .invalidState)
  | .resolve r => ∃ call, s.resolves r = some call ∧ call.pc = .ended (.raised .invalidState)
  | .cancel x => ∃ call, s.cancels x = some call ∧ call.pc = .ended (.raised .invalidState)

section Steps

variable [DecidableEq Sess] {m m' : Shared C Update Metadata} {a : Mutex.Action ℤ}
  {s s' : State C Update Metadata} {l : Label C Update Metadata}
  {P : State C Update Metadata → Label C Update Metadata → Prop}

omit [DecidableEq Sess] in
/-- Where there is no future to go for, none has to be pending. -/
theorem Shared.pending_of_none : ∀ c, (none : Option CallId) = some c → m.futures c = .pending :=
  nofun

/-- `_cancel` does not raise `InvalidStateError` where the future it goes for is
    pending, and only there. -/
theorem Shared.cancel_ne_invalid_iff {σ : Sess} {key : ListenerKey} {dup : Bool}
    {cid : Option C.Token} : (m.cancel σ key dup cid).2 ≠ .invalid ↔
      ∀ c, m.toCancel σ key cid = some c → m.futures c = .pending := by
  rw [Ne, cancel_invalid_iff]
  cases hl : m.listeners σ key with
  | none =>
    rw [toCancel_of_none hl]
    exact iff_of_true (fun ⟨_, h, _⟩ => absurd h nofun) pending_of_none
  | some listener =>
    rw [toCancel_of_some hl]
    by_cases hc : cid = none ∨ listener.coordinatorId = cid
    · simp only [Option.some.injEq, exists_eq_left', forall_eq', hc, true_and, not_not, if_true]
    · simp only [Option.some.injEq, exists_eq_left', hc, false_and, if_false]
      exact iff_of_true id pending_of_none

/-- A step of `listen` raises no `InvalidStateError` where the future it finds is pending,
    and only there. -/
theorem ListenCall.Step.pending_iff {c : CallId} {call : ListenCall C Update Metadata}
    {e : ListenEvent} {pc : ListenPc C.Token Update} (h : call.Step c m e a m' pc)
    (hne : call.pc ≠ .ended none (.raised .invalidState)) :
    (∀ c, call.looksUp m e = some c → m.futures c = .pending) ↔
      pc ≠ .ended none (.raised .invalidState) := by
  cases h with
  | replace pc policy head =>
    rw [looksUp_looked pc policy]
    refine iff_of_true (Shared.cancel_ne_invalid_iff.1 (?_ : (m.cancel _ _ true _).2 ≠ _)) nofun
    rw [head]
    exact nofun
  | replaceInvalid pc policy head =>
    rw [looksUp_looked pc policy]
    exact iff_of_false (fun h => Shared.cancel_ne_invalid_iff.2 h head) (absurd rfl)
  | reject pc policy =>
    rw [looksUp_eq_none fun _ hpol => absurd (policy.symm.trans hpol) nofun]
    exact iff_of_true Shared.pending_of_none nofun
  | outOfSync pc | proceed pc =>
    rw [looksUp_eq_none fun hpc => absurd (pc.symm.trans hpc) nofun]
    exact iff_of_true Shared.pending_of_none nofun
  | callback => exact iff_of_true Shared.pending_of_none hne
  | _ => exact iff_of_true Shared.pending_of_none nofun

/-- A step of `resolve` raises no `InvalidStateError`, and takes no listener that is
    done as a candidate, where the futures it finds and delivers to are pending, and only
    there. -/
theorem ResolveCall.Step.pending_iff {r : CallId} {call : ResolveCall C Update Metadata}
    {e : ResolveEvent} {pc : ResolvePc C.Token Update Metadata} (h : call.Step r m e a m' pc) :
    ((∀ c, call.looksUp m e = some c → m.futures c = .pending) ∧
      ∀ c, call.deliversTo e = some c → m.futures c = .pending) ↔
      pc ≠ .ended (.raised .invalidState) ∧ ∀ key sub listener subs,
        pc = .checking key sub listener subs → m.futures listener.future = .pending := by
  cases h with
  | scanNone pc none =>
    rw [looksUp_scan pc, none]
    exact iff_of_true ⟨Shared.pending_of_none, Shared.pending_of_none⟩
      ⟨nofun, fun _ _ _ _ h => absurd h nofun⟩
  | @scan key sub subs listener pc found =>
    rw [looksUp_scan pc, found, Option.map_some]
    refine ⟨fun hp => ⟨nofun, fun _ _ _ _ h => ?_⟩,
      fun h => ⟨fun c hc => ?_, Shared.pending_of_none⟩⟩
    · cases h
      exact hp.1 _ rfl
    · cases hc
      exact h.2 _ _ _ _ rfl
  | scanned pc =>
    rw [looksUp_scanned pc]
    exact iff_of_true ⟨Shared.pending_of_none, Shared.pending_of_none⟩
      ⟨nofun, fun _ _ _ _ h => absurd h nofun⟩
  | owned pc =>
    rw [looksUp_owned pc]
    exact iff_of_true ⟨Shared.pending_of_none, Shared.pending_of_none⟩
      ⟨nofun, fun _ _ _ _ h => absurd h nofun⟩
  | superseded pc head =>
    rw [looksUp_superseded pc]
    exact iff_of_true ⟨Shared.cancel_ne_invalid_iff.1 head, Shared.pending_of_none⟩
      ⟨nofun, fun _ _ _ _ h => absurd h nofun⟩
  | supersededInvalid pc head =>
    rw [looksUp_superseded pc]
    exact iff_of_false (fun h => Shared.cancel_ne_invalid_iff.2 h.1 head) fun h => h.1 rfl
  | bypassInvalid pc head =>
    rw [looksUp_bypass pc]
    exact iff_of_false (fun h => Shared.cancel_ne_invalid_iff.2 h.1 head) fun h => h.1 rfl
  | bypass pc head | bypassStale pc head =>
    rw [looksUp_bypass pc]
    refine iff_of_true ⟨Shared.cancel_ne_invalid_iff.1 (?_ : (m.cancel _ _ false _).2 ≠ _),
      Shared.pending_of_none⟩ ⟨nofun, fun _ _ _ _ h => absurd h nofun⟩
    rw [head]
    exact nofun
  | deliver pc pending =>
    rw [deliversTo_bypass pc]
    exact iff_of_true ⟨Shared.pending_of_none, fun _ hc => Option.some.inj hc ▸ pending⟩
      ⟨nofun, fun _ _ _ _ h => absurd h nofun⟩
  | deliverInvalid pc done =>
    rw [deliversTo_bypass pc]
    exact iff_of_false (fun h => done (h.2 _ rfl)) fun h => h.1 rfl
  | _ =>
    exact iff_of_true ⟨Shared.pending_of_none, Shared.pending_of_none⟩
      ⟨nofun, fun _ _ _ _ h => absurd h nofun⟩

/-- A step of `cancel` raises no `InvalidStateError` where the future it finds is pending,
    and only there. -/
theorem CancelCall.Step.pending_iff {call : CancelCall C Update} {e : CancelEvent}
    {pc : CancelPc Update} (h : call.Step m e a m' pc) :
    (∀ c, call.looksUp m e = some c → m.futures c = .pending) ↔
      pc ≠ .ended (.raised .invalidState) := by
  cases h with
  | stale pc head | onlyLocal pc _ head | proceed pc _ head =>
    rw [looksUp_head pc]
    refine iff_of_true (Shared.cancel_ne_invalid_iff.1
      (?_ : (m.cancel _ _ call.isDuplicate _).2 ≠ _)) nofun
    rw [head]
    exact nofun
  | invalid pc head =>
    rw [looksUp_head pc]
    exact iff_of_false (fun h => Shared.cancel_ne_invalid_iff.2 h head) (absurd rfl)
  | _ => exact iff_of_true Shared.pending_of_none nofun

omit [DecidableEq Sess] in
theorem State.Same.raisedInvalid {o : Owner} (h : s.Same s' o) :
    s'.RaisedInvalid o ↔ s.RaisedInvalid o := by
  cases o with
  | listen c => rw [RaisedInvalid, RaisedInvalid, show s'.listens c = s.listens c from h]
  | resolve r => rw [RaisedInvalid, RaisedInvalid, show s'.resolves r = s.resolves r from h]
  | cancel x => rw [RaisedInvalid, RaisedInvalid, show s'.cancels x = s.cancels x from h]

/-- Whether a call raises `InvalidStateError` in a step is whether that of the step does. -/
theorem Step.raisedInvalid_iff {o : Owner} (h : Step s l s') (hl : l.actor = some o)
    (hs : ∀ o, ¬s.RaisedInvalid o) : (∀ o, ¬s'.RaisedInvalid o) ↔ ¬s'.RaisedInvalid o := by
  refine ⟨fun h => h o, fun ho o' => ?_⟩
  by_cases hoo : o' = o
  · rwa [hoo]
  · have hsame := h.same_of_ne (o := o') fun h => hoo (Option.some.inj (h.symm.trans hl))
    rw [hsame.raisedInvalid]
    exact hs o'

/-- In a step, no call raises `InvalidStateError`, and `resolve` takes no listener that
    is done as a candidate, where the futures the step goes for are pending, and only
    there. -/
theorem Step.findsPending_iff (h : Step s l s') (hs : ∀ o, ¬s.RaisedInvalid o) :
    FindsPending s l ↔ (∀ o, ¬s'.RaisedInvalid o) ∧ ∀ r call key sub listener subs,
      l = .resolve r .scan → s'.resolves r = some call →
        call.pc = .checking key sub listener subs →
          s.shared.futures listener.future = .pending := by
  have hdef : FindsPending s l ↔ (∀ c, s.looksUp l = some c → s.shared.futures c = .pending) ∧
      ∀ c, s.deliversTo l = some c → s.shared.futures c = .pending :=
    ⟨fun h => ⟨h.lookup, h.delivery⟩, fun h => ⟨h.1, h.2⟩⟩
  cases hst : h with
  | @listen c call e a m pc running step =>
    have hne : call.pc ≠ .ended none (.raised .invalidState) := fun h =>
      hs (.listen c) ⟨call, running, h⟩
    rw [hdef, and_iff_left fun _ h => absurd h nofun, State.looksUp_listen running,
      step.pending_iff hne, h.raisedInvalid_iff rfl hs,
      and_iff_left fun _ _ _ _ _ _ h => absurd h nofun]
    simp [State.RaisedInvalid]
  | @resolve r call e a m pc running step =>
    rw [hdef, State.looksUp_resolve running, State.deliversTo_resolve running,
      step.pending_iff, h.raisedInvalid_iff rfl hs]
    refine and_congr (by simp [State.RaisedInvalid])
      ⟨fun hcand r' call' key sub listener subs hl hr hpc => ?_,
        fun hcand key sub listener subs hpc => ?_⟩
    · cases hl
      simp only [Function.update_self, Option.some.injEq] at hr
      subst hr
      exact hcand key sub listener subs hpc
    · cases step with
      | scan => exact hcand r _ key sub listener subs rfl (Function.update_self ..) hpc
      | _ => exact absurd hpc nofun
  | @cancel x call e a m pc running step =>
    rw [hdef, and_iff_left fun _ h => absurd h nofun, State.looksUp_cancel running,
      step.pending_iff, h.raisedInvalid_iff rfl hs,
      and_iff_left fun _ _ _ _ _ _ h => absurd h nofun]
    simp [State.RaisedInvalid]
  | startListen | startResolve | startCancel | signal =>
    rw [h.raisedInvalid_iff rfl hs, and_iff_left fun _ _ _ _ _ _ h => absurd h nofun]
    refine iff_of_true ⟨fun _ h => absurd h nofun, fun _ h => absurd h nofun⟩ ?_
    simp [State.RaisedInvalid]
  | stop =>
    rw [and_iff_left fun _ _ _ _ _ _ h => absurd h nofun]
    refine iff_of_true ⟨fun _ h => absurd h nofun, fun _ h => absurd h nofun⟩ fun o => ?_
    cases o with
    | listen c => exact hs (.listen c)
    | resolve r => exact hs (.resolve r)
    | cancel x => exact hs (.cancel x)

theorem not_raisedInvalid_of_reachable
    (h : (listenerLts C Update Metadata).ReachableUnder CallbacksFirst s) :
    ∀ o, ¬s.RaisedInvalid o := by
  refine h.invariant_of_reachable (I := fun s => ∀ o, ¬s.RaisedInvalid o) ?_
    fun s l s' hr hs hp hst =>
      ((Step.findsPending_iff hst hs).1 ((findsPending_iff_callbacksFirst hr).2 hp)).1
  rintro _ rfl o
  cases o <;> exact fun ⟨_, h, _⟩ => absurd h nofun

/-- No future is completed twice. In the runs whose steps find no listener in a map while
    its done-callback is due, and deliver no update to a call that a timer or a
    cancellation has reached, no call of `listen`, `resolve` or `cancel` raises
    `InvalidStateError`. And the next step of such a run raises none, and takes no listener
    that is done as a candidate, if and only if it does so too. -/
theorem completes_pending :
    (∀ s, (listenerLts C Update Metadata).ReachableUnder CallbacksFirst s →
      ∀ o, ¬s.RaisedInvalid o) ∧
    ∀ (s s' : State C Update Metadata) l,
      (listenerLts C Update Metadata).ReachableUnder CallbacksFirst s → Step s l s' →
      (CallbacksFirst s l ↔
        (∀ o, ¬s'.RaisedInvalid o) ∧ ∀ r call key sub listener subs, l = .resolve r .scan →
          s'.resolves r = some call → call.pc = .checking key sub listener subs →
            s.shared.futures listener.future = .pending) := by
  refine ⟨fun s h => not_raisedInvalid_of_reachable h, fun s s' l h hst => ?_⟩
  rw [← findsPending_iff_callbacksFirst h,
    hst.findsPending_iff (not_raisedInvalid_of_reachable h)]

/-! ### Timers -/

omit [DecidableEq Sess] in
/-- The condition that no task waiting in `listen` is cancelled. -/
def Uninterrupted (_ : State C Update Metadata) (l : Label C Update Metadata) : Prop :=
  ∀ c, l ≠ .listen c .interrupt

omit [DecidableEq Sess] in
/-- The condition that, besides, no timer fires once the future holds an update. -/
def TimersOnTime (s : State C Update Metadata) (l : Label C Update Metadata) : Prop :=
  Uninterrupted s l ∧ ∀ c, l = .listen c .timer → ∀ update r, s.shared.futures c ≠ .result update r

omit [DecidableEq Sess] in
/-- The condition that no timer fires at all, nor is a waiting task cancelled. -/
def NoTimer (_ : State C Update Metadata) (l : Label C Update Metadata) : Prop :=
  ∀ c, l ≠ .listen c .timer ∧ l ≠ .listen c .interrupt

omit [DecidableEq Sess] in
theorem NoTimer.timersOnTime (h : NoTimer s l) : TimersOnTime s l :=
  ⟨fun c => (h c).2, fun c hc => absurd hc (h c).1⟩

omit [DecidableEq Sess] in
theorem TimersOnTime.of_ne (hint : ∀ c, l ≠ .listen c .interrupt)
    (htimer : ∀ c, l ≠ .listen c .timer) : TimersOnTime s l :=
  ⟨hint, fun c h => absurd h (htimer c)⟩

omit [DecidableEq Sess] in
/-- A call of `listen` that is to end with an outcome, or waits, interrupted or not. -/
def ListenCall.EndsWith (call : ListenCall C Update Metadata) (i : Interrupt)
    (o : Outcome Update Update) : Prop :=
  match call.pc with
  | .waiting _ i' => i' = i
  | .finalizing _ o' | .unregistering _ o' => o' = o
  | .ended t o' => t ≠ none ∧ o' = o
  | _ => False

/-- The outcome is that of the wait, unless something else interrupts it. -/
theorem ListenCall.Step.endsWith {c : CallId} {call : ListenCall C Update Metadata}
    {e : ListenEvent} {pc : ListenPc C.Token Update} (h : call.Step c m e a m' pc) {i : Interrupt}
    {o : Outcome Update Update} (hc : call.EndsWith i o) (ho : m.waitOutcome c call.key i = o)
    (hint : e ≠ .interrupt) (htimer : e = .timer → i ≠ .none) :
    ListenCall.EndsWith { call with pc := pc } i o := by
  cases h with
  | timer pc =>
    rw [EndsWith, pc] at hc
    exact absurd hc.symm (htimer rfl)
  | interruptWait | interruptLock | interruptFinally => exact absurd rfl hint
  | wake pc =>
    rw [EndsWith, pc] at hc
    obtain rfl := hc
    exact ho
  | relock pc =>
    rw [EndsWith, pc] at hc
    exact hc
  | unregister pc =>
    rw [EndsWith, pc] at hc
    exact ⟨nofun, hc⟩
  | callback => exact hc
  | _ pc =>
    rw [EndsWith, pc] at hc
    exact hc.elim

/-- In the runs where no timer fires too late, a call whose future holds an update
    is to return it. -/
theorem endsWith_of_reachable (h : (listenerLts C Update Metadata).ReachableUnder TimersOnTime s) :
    ∀ c update r, s.shared.futures c = .result update r →
      ∃ call, s.listens c = some call ∧ call.EndsWith .none (.returned update) := by
  refine h.invariant_of_reachable (I := fun s => ∀ c update r,
    s.shared.futures c = .result update r →
      ∃ call, s.listens c = some call ∧ call.EndsWith .none (.returned update))
    (by rintro _ rfl _ _ _ hres; exact absurd hres nofun) ?_
  intro s l s' hr ih hp hst c update r hres
  rcases hst.futures_cases c with he | ⟨hpend, hcomp⟩
  · -- The update was there.
    rw [he] at hres
    obtain ⟨call, hc, hends⟩ := ih c update r hres
    rcases hst.listen_next hc with ⟨hc', _⟩ | ⟨e, a, pc, rfl, _, hs, hc'⟩
    · exact ⟨call, hc', hends⟩
    · refine ⟨_, hc', hs.endsWith hends ?_ (fun h => hp.1 c (h ▸ rfl)) fun h => ?_⟩
      · rw [Shared.waitOutcome, hres]
      · exact absurd hres (hp.2 c (h ▸ rfl) update r)
  · -- It is delivered to a call that waits.
    obtain ⟨call, t, hc, ht⟩ := hcomp.stored hr
    have hpc := ListenCall.waiting_of_not_settled ht fun hs =>
      (timely_of_reachable hr).done c call hc hs hpend
    rw [hres] at hcomp
    cases hcomp with
    | deliver =>
      refine ⟨call, (hst.same_of_ne (o := .listen c) nofun).trans hc, ?_⟩
      rw [ListenCall.EndsWith, hpc]

/-! The steps that end a call, once the chat lock is given back. -/

section Finish

variable {c : CallId} {call : ListenCall C Update Metadata} {t : C.Token}
  {o : Outcome Update Update}

theorem finishes_of_unregistering (hc : s.listens c = some call)
    (hpc : call.pc = .unregistering t o) : ∃ s' call',
      (listenerLts C Update Metadata).RunUnder NoTimer s s' ∧ s'.listens c = some call' ∧
        call'.pc = .ended (some t) o :=
  ⟨_, _, .tail .refl (by exact fun _ => ⟨nofun, nofun⟩) (.listen hc (.unregister hpc) trivial),
    Function.update_self .., rfl⟩

theorem finishes_of_finalizing (hc : s.listens c = some call)
    (hpc : call.pc = .finalizing t o) (hfree : s.locked call.key.chatId = false) : ∃ s' call',
      (listenerLts C Update Metadata).RunUnder NoTimer s s' ∧ s'.listens c = some call' ∧
        call'.pc = .ended (some t) o := by
  obtain ⟨s₁, hst, hc₁⟩ : ∃ s₁, Step s (.listen c .relock) s₁ ∧
      s₁.listens c = some { call with pc := .unregistering t o } :=
    ⟨_, .listen hc (.relock hpc) hfree, Function.update_self ..⟩
  obtain ⟨s', call', hrun, h⟩ := finishes_of_unregistering hc₁ rfl
  exact ⟨s', call', .trans (.tail .refl (by exact fun _ => ⟨nofun, nofun⟩) hst) hrun, h⟩

theorem finishes_of_waiting {update : Update} {r : CallId} (hc : s.listens c = some call)
    (hpc : call.pc = .waiting t .none) (hres : s.shared.futures c = .result update r)
    (hfree : s.locked call.key.chatId = false) : ∃ s' call',
      (listenerLts C Update Metadata).RunUnder NoTimer s s' ∧ s'.listens c = some call' ∧
        call'.pc = .ended (some t) (.returned update) := by
  have ho : s.shared.waitOutcome c call.key .none = .returned update := by
    rw [Shared.waitOutcome, hres]
  obtain ⟨s₁, hst, hc₁, hl₁⟩ : ∃ s₁, Step s (.listen c .wake) s₁ ∧
      s₁.listens c = some { call with pc := .finalizing t (.returned update) } ∧
        s₁.locked = s.locked :=
    ⟨_, .listen hc (.wake hpc (.inr (by rw [hres]; exact nofun))) trivial,
      by rw [ho]; exact Function.update_self .., rfl⟩
  obtain ⟨s', call', hrun, h⟩ := finishes_of_finalizing hc₁ rfl (hl₁ ▸ hfree)
  exact ⟨s', call', .trans (.tail .refl (by exact fun _ => ⟨nofun, nofun⟩) hst) hrun, h⟩

/-- A call that is to return an update can do so, as soon as no other call holds the
    chat lock. -/
theorem ListenCall.EndsWith.finishes {update : Update} {r : CallId}
    (h : call.EndsWith .none (.returned update)) (hc : s.listens c = some call)
    (hres : s.shared.futures c = .result update r)
    (hlock : s.locked call.key.chatId = false ∨ s.holds (.listen c) = some call.key.chatId) :
    ∃ s' call' t, (listenerLts C Update Metadata).RunUnder NoTimer s s' ∧
      s'.listens c = some call' ∧ call'.pc = .ended (some t) (.returned update) := by
  have hfree (hh : call.holds = none) : s.locked call.key.chatId = false := by
    refine hlock.resolve_right fun h => ?_
    rw [State.holds, hc, Option.bind_some, hh] at h
    cases h
  cases hpc : call.pc with
  | waiting t i =>
    rw [EndsWith, hpc] at h
    obtain ⟨s', call', hfin⟩ := finishes_of_waiting hc (h ▸ hpc) hres
      (hfree (by rw [ListenCall.holds, hpc]))
    exact ⟨s', call', t, hfin⟩
  | finalizing t o =>
    rw [EndsWith, hpc] at h
    obtain ⟨s', call', hfin⟩ := finishes_of_finalizing hc (h ▸ hpc)
      (hfree (by rw [ListenCall.holds, hpc]))
    exact ⟨s', call', t, hfin⟩
  | unregistering t o =>
    rw [EndsWith, hpc] at h
    obtain ⟨s', call', hfin⟩ := finishes_of_unregistering hc (h ▸ hpc)
    exact ⟨s', call', t, hfin⟩
  | ended t o =>
    rw [EndsWith, hpc] at h
    obtain ⟨t, rfl⟩ := Option.ne_none_iff_exists'.1 h.1
    exact ⟨s, call, t, .refl, hc, h.2 ▸ hpc⟩
  | _ =>
    rw [EndsWith, hpc] at h
    exact h.elim

end Finish

/-- A delivered update is not lost to a timer. In the runs where no timer fires on a future
    that holds an update (and where no waiting task is cancelled), the call whose future `resolve`
    completed with an update returns the update, if it has ended, and can return it as
    soon as no other call holds its chat lock. A timer that fires later, before the call
    is woken up, makes it raise `ListenerTimeout`. -/
theorem delivered_is_returned :
    (∀ s : State C Update Metadata, (listenerLts C Update Metadata).ReachableUnder TimersOnTime s →
      ∀ c update r, s.shared.futures c = .result update r → ∃ call, s.listens c = some call ∧
        (∀ t o, call.pc = .ended t o → o = .returned update) ∧
        (s.locked call.key.chatId = false ∨ s.holds (.listen c) = some call.key.chatId →
          ∃ s' call' t, (listenerLts C Update Metadata).RunUnder NoTimer s s' ∧
            s'.listens c = some call' ∧ call'.pc = .ended (some t) (.returned update))) ∧
    ∀ s s₁ s₂ : State C Update Metadata, ∀ c update r, s.shared.futures c = .result update r →
      Step s (.listen c .timer) s₁ → (listenerLts C Update Metadata).RunUnder Uninterrupted s₁ s₂ →
        ∃ call, s₂.listens c = some call ∧
          ∀ t o, call.pc = .ended t o → o = .raised (.listenerTimeout call.key) := by
  constructor
  · intro s h c update r hres
    obtain ⟨call, hc, hends⟩ := endsWith_of_reachable h c update r hres
    refine ⟨call, hc, fun t o hpc => ?_, hends.finishes hc hres⟩
    rw [ListenCall.EndsWith, hpc] at hends
    exact hends.2
  · intro s s₁ s₂ c update r hres hst hrun
    suffices h : ∃ call, s₂.listens c = some call ∧
        call.EndsWith .timeout (.raised (.listenerTimeout call.key)) by
      obtain ⟨call, hc, hends⟩ := h
      refine ⟨call, hc, fun t o hpc => ?_⟩
      rw [ListenCall.EndsWith, hpc] at hends
      exact hends.2
    refine hrun.invariant (I := fun s₂ => ∃ call, s₂.listens c = some call ∧
      call.EndsWith .timeout (.raised (.listenerTimeout call.key))) ?_ ?_
    · cases hst with
      | listen _ step =>
        cases step with
        | timer => exact ⟨_, Function.update_self .., rfl⟩
    · rintro s₂ l s₃ ⟨call, hc, hends⟩ hp hst
      rcases Step.listen_next hst hc with ⟨hc', _⟩ | ⟨e, a, pc, rfl, _, hs, hc'⟩
      · exact ⟨call, hc', hends⟩
      · exact ⟨_, hc', hs.endsWith hends rfl (fun h => hp c (h ▸ rfl)) nofun⟩

end Steps

/-! ### An update, and another one -/

/-- A listener in memory whose future holds an update, and whose call has not been woken
    up: its done-callback has not run, and it is still in the map. -/
theorem exists_delivered : ∃ s : State memoryCoordinator String Unit,
    (listenerLts memoryCoordinator String Unit).ReachableUnder
      (fun s l => TimersOnTime s l ∧ CallbacksFirst s l) s ∧
    s.listens 0 = some ⟨(), ⟨100, none, none⟩, none, .reject, .waiting (0 : ℕ) .none⟩ ∧
    s.shared.futures 0 = .result "hello" 0 ∧
    s.shared.listeners () ⟨100, none, none⟩ =
      some ⟨⟨100, none, none⟩, none, 0, some (0 : ℕ)⟩ ∧
    memoryCoordinator.registered s.shared.backend () ⟨100, none, none⟩ (some (0 : ℕ)) = true ∧
    s.locked 100 = false ∧ s.resolves 1 = none := by
  have h₀ : (listenerLts memoryCoordinator String Unit).ReachableUnder
      (fun s l => TimersOnTime s l ∧ CallbacksFirst s l) (.init ..) := .init rfl
  -- No done-callback is due, up to the hook.
  have h₁ := h₀.run (run_listen 0 () ⟨100, none, none⟩ none .reject
    (fun _ _ hcb hl => ⟨.of_ne hl.ne_interrupt hl.ne_timer,
      .of_callbacks (congrFun hcb) (hl.ne_resolve · _)⟩) rfl rfl rfl rfl rfl)
  have h₂ := h₁.run (run_resolve 0 () "hello"
    (fun _ _ hm hl => ⟨.of_ne (hl.ne_listen · _) (hl.ne_listen · _),
      .of_callbacks (congrFun (congrArg Shared.callbacks hm)) (hl.ne_bypass · _)⟩)
    rfl rfl (ListenerKey.subKeys_chat 100) rfl rfl)
  have h₃ := h₂.tail
    (by exact ⟨.of_ne nofun nofun, nofun, fun c hc => ⟨_, _, by cases hc; rfl, rfl⟩⟩)
    (.resolve (r := 0) rfl (.deliver rfl rfl) trivial)
  exact ⟨_, h₃, rfl, rfl, rfl, rfl, rfl, rfl⟩

/-- The first update raises nothing. -/
theorem completes_pending_once : ∃ s : State memoryCoordinator String Unit,
    (listenerLts memoryCoordinator String Unit).ReachableUnder CallbacksFirst s ∧
    s.shared.futures 0 = .result "hello" 0 ∧ ∀ o, ¬s.RaisedInvalid o := by
  obtain ⟨s, h, _, hres, _⟩ := exists_delivered
  have h' := h.mono fun _ _ h => h.2
  exact ⟨s, h', hres, completes_pending.1 s h'⟩

/-- A second update that comes before the done-callback of the first one has run finds
    the listener in the map, and registered: `set_result` raises. -/
theorem completes_done : ¬∀ s : State memoryCoordinator String Unit,
    (listenerLts memoryCoordinator String Unit).Reachable s → ∀ o, ¬s.RaisedInvalid o := by
  intro hclaim
  obtain ⟨s, h, _, hres, hl, hreg, hfree, hnew⟩ := exists_delivered
  have h₁ := h.reachable.run (run_resolve 1 () "again" (fun _ _ _ _ => trivial) hnew hfree
    (ListenerKey.subKeys_chat 100) hl hreg)
  have hdone : s.shared.futures 0 ≠ .pending := by
    rw [hres]
    exact nofun
  have h₂ := h₁.tail trivial (.resolve (r := 1) rfl (.deliverInvalid rfl hdone) trivial)
  exact hclaim _ h₂ (.resolve 1) ⟨_, rfl, rfl⟩

/-- The call that waits can return the update. -/
theorem delivered_is_returned_once : ∃ s : State memoryCoordinator String Unit,
    (listenerLts memoryCoordinator String Unit).ReachableUnder TimersOnTime s ∧
    ∃ call t, s.listens 0 = some call ∧ call.pc = .ended t (.returned "hello") := by
  obtain ⟨s, h, hc, hres, _, _, hfree, _⟩ := exists_delivered
  have h' := h.mono fun _ _ h => h.1
  obtain ⟨call, hc', _, hfin⟩ := delivered_is_returned.1 s h' 0 "hello" 0 hres
  obtain rfl := Option.some.inj (hc.symm.trans hc')
  obtain ⟨s', call', t, hrun, hc', hpc⟩ := hfin (.inl hfree)
  exact ⟨s', h'.run (hrun.mono fun _ _ h => h.timersOnTime), call', _, hc', hpc⟩

/-- A timer that fires after `set_result` and before the waiting call is woken up: the
    call raises `ListenerTimeout`, and the update is lost. -/
theorem delivered_times_out : ¬∀ s : State memoryCoordinator String Unit,
    (listenerLts memoryCoordinator String Unit).ReachableUnder Uninterrupted s →
      ∀ c update r, s.shared.futures c = .result update r →
        ∀ call t o, s.listens c = some call → call.pc = .ended t o → o = .returned update := by
  intro hclaim
  obtain ⟨s, h, hc, hres, _, _, hfree, _⟩ := exists_delivered
  have hdone : s.shared.futures 0 ≠ .pending := by
    rw [hres]
    exact nofun
  have h₁ := (h.mono fun _ _ h => h.1.1).tail (by exact nofun)
    (.listen (c := 0) hc (.timer rfl) trivial)
  have h₂ := h₁.tail (by exact nofun) (.listen (c := 0) rfl (.wake rfl (.inl nofun)) trivial)
  have h₃ := h₂.tail (by exact nofun) (.listen (c := 0) rfl (.relock rfl) hfree)
  have h₄ := h₃.tail (by exact nofun) (.listen (c := 0) rfl (.unregister rfl) trivial)
  -- The future still holds the update.
  refine absurd (hclaim _ h₄ 0 "hello" 0 (.trans ?_ hres) _ _ _ rfl rfl) nofun
  exact (Shared.shrinks_cancelFuture.trans
    (Shared.shrinks_failWaiter.trans Shared.shrinks_cleanupListen)).futures 0 hdone

end Pyroflow
