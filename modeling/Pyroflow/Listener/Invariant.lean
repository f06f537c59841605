import Pyroflow.Listener.Frame

/-!
# Listeners and the calls that wait

What holds of the listeners in every reachable state, whatever the coordinators
do, stop included:

* `waited_of_reachable`: a listener in a local map is that of a waiting call;
* `timely_of_reachable`: the future of a call is pending until the call has
  stored its listener, and done as soon as the call stops waiting for it;
* `candidates_of_reachable`: the listener a call of `resolve` is about to complete
  was stored, by a call of its session, under the key it is looked up under.

Futures are completed by the timer or the cancellation of their call, by
`_cancel` on their listener, and by the delivery of an update (`Completes`).
-/

namespace Pyroflow

variable {Sess : Type} {C : ListenerCoordinator Sess} {Update Metadata : Type}

/-! ### The stored listener -/

/-- The token of the listener a call of `listen` has stored. -/
def ListenCall.stored (call : ListenCall C Update Metadata) : Option C.Token :=
  match call.pc with
  | .waiting t _ | .finalizing t _ | .unregistering t _ => some t
  | .ended t _ => t
  | _ => none

/-- A call of `listen` that does not wait for its future any more, having stored
    its listener. -/
def ListenCall.Settled (call : ListenCall C Update Metadata) : Prop :=
  match call.pc with
  | .waiting _ i => i ≠ .none
  | .finalizing .. | .unregistering .. | .ended (some _) _ => True
  | _ => False

/-- The listener of a session stored under a key. -/
def State.Stored (s : State C Update Metadata) (σ : Sess) (k : ListenerKey)
    (listener : ListenerModel C.Token Metadata) : Prop :=
  ∃ call t, s.listens listener.future = some call ∧ call.stored = some t ∧ call.session = σ ∧
    call.key = k ∧ listener = ⟨k, call.metadata, listener.future, some t⟩

/-- The token of a stored listener is the one its call has obtained. -/
theorem ListenCall.token_of_stored {call : ListenCall C Update Metadata} {t : C.Token}
    (h : call.stored = some t) : call.token = some t := by
  obtain ⟨_, _, _, _, pc⟩ := call
  cases pc with
  | waiting | finalizing | unregistering | ended => exact h
  | _ => exact absurd h nofun

/-- A call that stored its listener and did not settle waits for its future. -/
theorem ListenCall.waiting_of_not_settled {call : ListenCall C Update Metadata} {t : C.Token}
    (h : call.stored = some t) (hs : ¬call.Settled) : call.pc = .waiting t .none := by
  obtain ⟨_, _, _, _, pc⟩ := call
  cases pc with
  | waiting t' i =>
    obtain rfl := Option.some.inj h
    rw [Settled, not_not] at hs
    rw [hs]
  | finalizing | unregistering => exact absurd trivial hs
  | ended t' =>
    obtain rfl : t' = some t := h
    exact absurd trivial hs
  | _ => exact absurd h nofun

variable [DecidableEq Sess] {m m' : Shared C Update Metadata} {a : Mutex.Action ℤ}
  {s s' : State C Update Metadata} {l : Label C Update Metadata}
  {P : State C Update Metadata → Label C Update Metadata → Prop}

section Listen

variable {c : CallId} {call : ListenCall C Update Metadata} {e : ListenEvent}
  {pc : ListenPc C.Token Update}

/-- A call that stored its listener goes on with the same token. -/
theorem ListenCall.Step.stored (h : call.Step c m e a m' pc) {t : C.Token}
    (ht : call.stored = some t) : ListenCall.stored { call with pc := pc } = some t := by
  cases h with
  | timer pc | interruptWait pc | wake pc | relock pc | unregister pc | interruptFinally pc =>
    rw [ListenCall.stored, pc] at ht
    exact ht
  | callback => exact ht
  | _ pc =>
    rw [ListenCall.stored, pc] at ht
    exact absurd ht nofun

end Listen

/-- What a step does to a call of `listen`: it stays where it is, or takes the step. -/
theorem Step.listen_next {c : CallId} {call : ListenCall C Update Metadata} (h : Step s l s')
    (hc : s.listens c = some call) :
    s'.listens c = some call ∧ l.actor ≠ some (.listen c) ∨
    ∃ e a pc, l = .listen c e ∧ a.Enabled s.locked ∧ call.Step c s.shared e a s'.shared pc ∧
      s'.listens c = some { call with pc := pc } := by
  cases hc' : s'.listens c with
  | none =>
    by_cases hl : l.actor = some (.listen c)
    · cases h with
      | startListen | listen =>
        cases hl
        exact absurd hc' (by simp)
      | _ => exact absurd hl nofun
    · rw [show s'.listens c = s.listens c from h.same_of_ne hl, hc] at hc'
      exact absurd hc' nofun
  | some call' =>
    rcases h.listen_cases hc' with ⟨hc₀, hl⟩ | ⟨hc₀, _⟩ | ⟨call₀, e, a, pc, hc₀, hl, ha, hs, rfl⟩
    · rw [hc, Option.some.injEq] at hc₀
      subst hc₀
      exact .inl ⟨rfl, hl⟩
    · rw [hc] at hc₀
      exact absurd hc₀ nofun
    · rw [hc, Option.some.injEq] at hc₀
      subst hc₀
      exact .inr ⟨e, a, pc, hl, ha, hs, rfl⟩

/-- A listener that was stored stays the one its call stored. -/
theorem Step.stored {σ : Sess} {k : ListenerKey} {listener : ListenerModel C.Token Metadata}
    (h : Step s l s') (hs : s.Stored σ k listener) : s'.Stored σ k listener := by
  obtain ⟨call, t, hc, ht, rfl, rfl, hl⟩ := hs
  rcases h.listen_next hc with ⟨hc', _⟩ | ⟨e, a, pc, _, _, hst, hc'⟩
  · exact ⟨call, t, hc', ht, rfl, rfl, hl⟩
  · exact ⟨_, t, hc', hst.stored ht, rfl, rfl, hl⟩

/-! ### The listeners in the maps -/

/-- The listeners in the maps are those of waiting calls. -/
def State.Waited (s : State C Update Metadata) : Prop :=
  ∀ σ k listener, s.shared.listeners σ k = some listener → ∃ call t i,
    s.listens listener.future = some call ∧ call.pc = .waiting t i ∧ call.session = σ ∧
      call.key = k ∧ listener = ⟨k, call.metadata, listener.future, some t⟩

omit [DecidableEq Sess] in
theorem State.Waited.stored (h : s.Waited) {σ : Sess} {k : ListenerKey}
    {listener : ListenerModel C.Token Metadata} (hl : s.shared.listeners σ k = some listener) :
    s.Stored σ k listener := by
  obtain ⟨call, t, i, hc, hpc, hσ, hk, he⟩ := h σ k listener hl
  exact ⟨call, t, hc, by rw [ListenCall.stored, hpc], hσ, hk, he⟩

/-- A waiting call whose listener is still there after its step goes on waiting. -/
theorem ListenCall.Step.waiting {c : CallId} {call : ListenCall C Update Metadata} {e : ListenEvent}
    {pc : ListenPc C.Token Update} (h : call.Step c m e a m' pc) {t : C.Token} {i : Interrupt}
    (hpc : call.pc = .waiting t i) {listener : ListenerModel C.Token Metadata}
    (hl : m'.listeners call.session call.key = some listener) (hf : listener.future = c) :
    ∃ i', pc = .waiting t i' := by
  cases h with
  | timer pc | interruptWait pc =>
    rw [hpc] at pc
    cases pc
    exact ⟨_, rfl⟩
  | wake => exact absurd hf (Shared.cleanupListen_self hl)
  | callback => exact ⟨i, hpc⟩
  | _ pc => exact absurd (hpc.symm.trans pc) nofun

theorem Step.waited (h : Step s l s') (hw : s.Waited) : s'.Waited := by
  intro σ k listener hl
  rcases h.shrinks with hs | ⟨c, call, t, rfl, hc, hpc, hc', hm⟩
  · -- The listener was there, and its call waits on unless it cleans up.
    obtain ⟨call, t, i, hc, hpc, rfl, rfl, he⟩ := hw σ k listener (hs.of_some hl)
    rcases h.listen_next hc with ⟨hc', _⟩ | ⟨e, a, pc, _, _, hst, hc'⟩
    · exact ⟨call, t, i, hc', hpc, rfl, rfl, he⟩
    · obtain ⟨i', rfl⟩ := hst.waiting hpc hl rfl
      exact ⟨_, t, i', hc', rfl, rfl, rfl, he⟩
  · rw [hm, Shared.setListener_apply] at hl
    split at hl
    · -- The listener is the one just stored.
      rename_i hk
      obtain rfl := Option.some.inj hl
      exact ⟨_, t, .none, hc', rfl, hk.1.symm, hk.2.symm, by rw [hk.2]⟩
    · obtain ⟨call₁, t₁, i₁, hc₁, hpc₁, hσ₁, hk₁, he₁⟩ := hw σ k listener hl
      refine ⟨call₁, t₁, i₁, ?_, hpc₁, hσ₁, hk₁, he₁⟩
      rcases h.listen_next hc₁ with ⟨h₁, _⟩ | ⟨e, a, pc, hl₁, _⟩
      · exact h₁
      · -- A call that stores its listener was not waiting.
        cases hl₁
        rw [hc, Option.some.injEq] at hc₁
        rw [← hc₁, hpc] at hpc₁
        exact absurd hpc₁ nofun

/-- In a reachable state, a listener in a map is that of a waiting call. -/
theorem waited_of_reachable (h : (listenerLts C Update Metadata).ReachableUnder P s) : s.Waited :=
  h.invariant (I := State.Waited) (by rintro _ rfl _ _ _ hl; exact absurd hl nofun)
    fun _ _ _ ih _ hst => Step.waited hst ih

/-! ### The candidates of a call of `resolve` -/

omit [DecidableEq Sess] in
/-- The listener a call of `resolve` is about to complete, with its key. -/
def ResolveCall.candidate (call : ResolveCall C Update Metadata) :
    Option (ListenerKey × ListenerModel C.Token Metadata) :=
  match call.pc with
  | .checking _ sub listener _ | .checked _ sub listener _ _ | .bypassing _ sub listener =>
    some (sub, listener)
  | _ => none

/-- A candidate is found in the map, or was a candidate. -/
theorem ResolveCall.Step.candidate {r : CallId} {call : ResolveCall C Update Metadata}
    {e : ResolveEvent} {pc : ResolvePc C.Token Update Metadata} (h : call.Step r m e a m' pc)
    {k : ListenerKey} {listener : ListenerModel C.Token Metadata}
    (hk : ResolveCall.candidate { call with pc := pc } = some (k, listener)) :
    m.listeners call.session k = some listener ∨ call.candidate = some (k, listener) := by
  cases h with
  | scan pc found =>
    cases hk
    exact .inl found
  | check pc | owned pc =>
    rw [ResolveCall.candidate, pc]
    exact .inr hk
  | _ => exact absurd hk nofun

/-- In a reachable state, the candidates of a call of `resolve` were stored by
    calls of its session. -/
theorem candidates_of_reachable (h : (listenerLts C Update Metadata).ReachableUnder P s) :
    ∀ r call k listener, s.resolves r = some call → call.candidate = some (k, listener) →
      s.Stored call.session k listener := by
  refine h.invariant_of_reachable (I := fun s => ∀ r call k listener, s.resolves r = some call →
    call.candidate = some (k, listener) → s.Stored call.session k listener)
    (by rintro _ rfl _ _ _ _ hr; exact absurd hr nofun) ?_
  intro s l s' hr ih _ hst r call' k listener hr' hk
  rcases hst.resolve_cases hr' with
    ⟨hr₀, _⟩ | ⟨_, _, _, _, _, rfl⟩ | ⟨call, e, a, pc, hr₀, _, _, hs, rfl⟩
  · exact hst.stored (ih r call' k listener hr₀ hk)
  · exact absurd hk nofun
  · rcases hs.candidate hk with hl | hk₀
    · exact hst.stored ((waited_of_reachable hr).stored hl)
    · exact hst.stored (ih r call k listener hr₀ hk₀)

/-! ### The completion of futures -/

omit [DecidableEq Sess] in
variable (s) in
/-- How a step may complete the future of the call `c`. -/
inductive Completes (c : CallId) : Label C Update Metadata → Future Update → Prop
  /-- Its timer or its cancellation reaches it. -/
  | reach {call t i e} (hc : s.listens c = some call) (pc : call.pc = .waiting t i)
      (he : e = .timer ∨ e = .interrupt) : Completes c (.listen c e) .cancelled
  /-- The `except` blocks of its call. -/
  | fail {call t i exc} (hc : s.listens c = some call) (pc : call.pc = .waiting t i) :
      Completes c (.listen c .wake) (.exception exc)
  /-- `_cancel`, on its listener, by a call that holds the chat lock. -/
  | cancel {l o σ k listener isDuplicate} (actor : l.actor = some o)
      (lock : (∀ r call, s.resolves r = some call → call.Scans) → s.holds o = some k.chatId)
      (found : s.shared.listeners σ k = some listener) (hc : listener.future = c) :
      Completes c l (.exception (.listenerCancelled k isDuplicate))
  /-- The delivery of an update. -/
  | deliver {r call key k listener} (hr : s.resolves r = some call)
      (pc : call.pc = .bypassing key k listener) (hc : listener.future = c) :
      Completes c (.resolve r (.bypass (some false))) (.result call.update r)

theorem Completes.of_cancel {σ : Sess} {key : ListenerKey} {dup : Bool} {cid : Option C.Token}
    {o : Owner} (actor : l.actor = some o)
    (lock : (∀ r call, s.resolves r = some call → call.Scans) → s.holds o = some key.chatId)
    (c : CallId) :
    (s.shared.cancel σ key dup cid).1.futures c = s.shared.futures c ∨
      s.shared.futures c = .pending ∧
        Completes s c l ((s.shared.cancel σ key dup cid).1.futures c) := by
  rcases Shared.cancel_futures (m := s.shared) c with h | ⟨hp, he, listener, hl, hf, _⟩
  · exact .inl h
  · exact .inr ⟨hp, he ▸ .cancel actor lock hl hf⟩

/-- A step leaves a future as it is, or completes it while it is pending. -/
theorem Step.futures_cases (h : Step s l s') (c : CallId) :
    s'.shared.futures c = s.shared.futures c ∨
      s.shared.futures c = .pending ∧ Completes s c l (s'.shared.futures c) := by
  cases h with
  | @listen c₁ call e a m pc running step =>
    cases step with
    | replace pc | replaceInvalid pc =>
      refine Completes.of_cancel rfl (fun _ => ?_) c
      rw [State.holds, running, Option.bind_some, ListenCall.holds, pc]
    | timer pc | interruptWait pc =>
      rcases s.shared.cancelFuture_eq c₁ with ⟨_, he⟩ | ⟨hp, he⟩
      · exact .inl (by rw [he])
      · by_cases hc : c = c₁
        · subst hc
          simp only [he, Shared.complete_futures, Function.update_self]
          exact .inr ⟨hp, .reach running pc (by simp)⟩
        · exact .inl (Shared.cancelFuture_of_ne hc)
    | wake pc =>
      simp only [Shared.cleanupListen_futures]
      rcases s.shared.failWaiter_eq c₁ _ with he | ⟨hp, exc, he⟩
      · exact .inl (by rw [he])
      · by_cases hc : c = c₁
        · subst hc
          simp only [he, Shared.complete_futures, Function.update_self]
          exact .inr ⟨hp, .fail running pc⟩
        · exact .inl (by rw [he, Shared.complete_futures, Function.update_of_ne hc])
    | callback => exact .inl (congrFun Shared.cleanupListen_futures c)
    | _ => exact .inl rfl
  | resolve running step =>
    cases step with
    | superseded pc | supersededInvalid pc | bypass pc | bypassStale pc | bypassInvalid pc =>
      refine Completes.of_cancel rfl (fun hs => ?_) c
      have hsub := hs _ _ running
      simp only [ResolveCall.Scans, pc, List.cons_subset] at hsub
      rw [State.holds, running, Option.bind_some, ResolveCall.holds, pc]
      first
      | rw [ListenerKey.chatId_of_mem_subKeys hsub]
      | rw [ListenerKey.chatId_of_mem_subKeys hsub.1]
    | @deliver _ _ listener pc pending =>
      by_cases hc : c = listener.future
      · subst hc
        simp only [Shared.complete_futures, Function.update_self]
        exact .inr ⟨pending, .deliver running pc rfl⟩
      · exact .inl (Function.update_of_ne hc ..)
    | _ => exact .inl rfl
  | cancel running step =>
    cases step with
    | stale pc | invalid pc | onlyLocal pc | proceed pc =>
      refine Completes.of_cancel rfl (fun _ => ?_) c
      rw [State.holds, running, Option.bind_some, CancelCall.holds, pc]
    | _ => exact .inl rfl
  | _ => exact .inl rfl

/-- The call whose future is completed has stored its listener. -/
theorem Completes.stored {c : CallId} {f : Future Update} (h : Completes s c l f)
    (hr : (listenerLts C Update Metadata).ReachableUnder P s) :
    ∃ call t, s.listens c = some call ∧ call.stored = some t := by
  cases h with
  | reach hc pc | fail hc pc => exact ⟨_, _, hc, by rw [ListenCall.stored, pc]⟩
  | cancel _ _ found hc =>
    obtain ⟨call, t, hl, ht, _⟩ := (waited_of_reachable hr).stored found
    exact ⟨call, t, hc ▸ hl, ht⟩
  | deliver hr₁ pc hc =>
    obtain ⟨call, t, hl, ht, _⟩ :=
      candidates_of_reachable hr _ _ _ _ hr₁ (by rw [ResolveCall.candidate, pc])
    exact ⟨call, t, hc ▸ hl, ht⟩

/-! ### The futures and the points of their calls -/

omit [DecidableEq Sess] in
variable (s) in
/-- The futures are completed in time: not before the call has stored its listener,
    and before it stops waiting, or a done-callback is scheduled. -/
structure State.Timely : Prop where
  pending : ∀ c, (∀ call, s.listens c = some call → call.stored = none) →
    s.shared.futures c = .pending
  done : ∀ c call, s.listens c = some call → call.Settled → s.shared.futures c ≠ .pending
  scheduled : ∀ c, s.shared.callbacks c = true → s.shared.futures c ≠ .pending

/-- A done future stays as it is. -/
theorem Step.done_stays (h : Step s l s') {c : CallId} (hc : s.shared.futures c ≠ .pending) :
    s'.shared.futures c = s.shared.futures c := by
  rcases h.futures_cases c with h | ⟨hp, _⟩
  · exact h
  · exact absurd hp hc

/-- A call that settles leaves its future done. -/
theorem ListenCall.Step.done {c : CallId} {call : ListenCall C Update Metadata} {e : ListenEvent}
    {pc : ListenPc C.Token Update} (h : call.Step c m e a m' pc)
    (hd : call.Settled → m.futures c ≠ .pending)
    (hs : ListenCall.Settled { call with pc := pc }) : m'.futures c ≠ .pending := by
  cases h with
  | timer | interruptWait => exact Shared.cancelFuture_done
  | wake pc awake =>
    -- It was interrupted, which left its future done, or it was woken up by it.
    have hc : m.futures c ≠ .pending := by
      rcases awake with hi | hc
      · exact hd (by rwa [ListenCall.Settled, pc])
      · exact hc
    rw [Shared.cleanupListen_futures, Shared.failWaiter_of_done hc]
    exact hc
  | relock pc | unregister pc | interruptFinally pc =>
    exact hd (by rw [ListenCall.Settled, pc]; trivial)
  | callback =>
    rw [Shared.callback, Shared.cleanupListen_futures]
    exact hd hs
  | store => exact absurd rfl hs
  | _ => exact absurd hs id

theorem Step.timely (h : Step s l s') (hr : (listenerLts C Update Metadata).ReachableUnder P s)
    (ht : s.Timely) : s'.Timely where
  pending c hn := by
    have hn₀ : ∀ call, s.listens c = some call → call.stored = none := by
      intro call hc
      rcases h.listen_next hc with ⟨hc', _⟩ | ⟨e, a, pc, _, _, hst, hc'⟩
      · exact hn call hc'
      · cases hst₀ : call.stored with
        | none => rfl
        | some t => exact absurd ((hst.stored hst₀).symm.trans (hn _ hc')) nofun
    rcases h.futures_cases c with he | ⟨_, hcomp⟩
    · rw [he, ht.pending c hn₀]
    · obtain ⟨call, t, hc, hst⟩ := hcomp.stored hr
      exact absurd (hst.symm.trans (hn₀ call hc)) nofun
  done c call' hc' hs := by
    rcases h.listen_cases hc' with
      ⟨hc, _⟩ | ⟨_, _, _, _, _, _, _, rfl⟩ | ⟨call, e, a, pc, hc, _, _, hst, rfl⟩
    · rw [h.done_stays (ht.done c call' hc hs)]
      exact ht.done c call' hc hs
    · exact absurd hs id
    · exact hst.done (ht.done c call hc) hs
  scheduled c hc := by
    rcases h.shrinks with hs | ⟨_, _, _, _, _, _, _, hm⟩
    · rcases hs.callbacks c hc with hc₀ | hd
      · rw [h.done_stays (ht.scheduled c hc₀)]
        exact ht.scheduled c hc₀
      · exact hd
    · rw [hm] at hc ⊢
      exact ht.scheduled c hc

/-- In a reachable state, the futures are completed in time. -/
theorem timely_of_reachable (h : (listenerLts C Update Metadata).ReachableUnder P s) :
    s.Timely := by
  refine h.invariant_of_reachable (I := State.Timely) ?_ fun _ _ _ hr ih _ hst =>
    Step.timely hst hr ih
  rintro _ rfl
  exact ⟨fun _ _ => rfl, fun _ _ hc => absurd hc nofun, fun _ hc => absurd hc nofun⟩

end Pyroflow
