import Pyroflow.Listener.Invariant

/-!
# Between a completion and its done-callback

A listener whose future is done stays in the map of its session until the done-callback
runs, and the code that finds it there does not look whether it is done. Such code may run
in this window: a second update, a `cancel`, a `listen` that replaces it. Besides, a timer
or a cancellation may reach the listener that `resolve` has found, while `resolve` awaits
the coordinator or the bypass hook.

`CallbacksFirst` is the condition that the schedule leaves these windows out. It is about
who runs when, and says nothing of the futures. What it gives rests on two facts:

* a listener in a map has a pending future, or a done-callback that is due
  (`due_of_reachable`);
* a listener found under the chat lock keeps a pending future as long as its call is not
  interrupted, since whoever else completes futures needs the lock (`pending_of_candidate`).

So, in the runs under the condition, a step meets it exactly if it finds the future it goes
for pending (`findsPending_iff_callbacksFirst`).
-/

namespace Pyroflow

variable {Sess : Type} {C : ListenerCoordinator Sess} {Update Metadata : Type}

/-! ### The futures a step goes for -/

/-- The future of the listener that `_cancel` finds under the key. -/
def Shared.toCancel (m : Shared C Update Metadata) (σ : Sess) (key : ListenerKey)
    (coordinatorId : Option C.Token) : Option CallId :=
  match m.listeners σ key with
  | none => none
  | some listener =>
    if coordinatorId = none ∨ listener.coordinatorId = coordinatorId then some listener.future
    else none

/-- The future of the listener that a step of `listen` finds, when it replaces a duplicate. -/
def ListenCall.looksUp (m : Shared C Update Metadata) (call : ListenCall C Update Metadata) :
    ListenEvent → Option CallId
  | .looked =>
    match call.pc, call.policy with
    | .looked true, .replace => m.toCancel call.session call.key none
    | _, _ => none
  | _ => none

/-- The future of the listener that a step of `resolve` finds: that of its next candidate,
    or of the one it cancels. -/
def ResolveCall.looksUp (m : Shared C Update Metadata) (call : ResolveCall C Update Metadata) :
    ResolveEvent → Option CallId
  | .scan =>
    match call.pc with
    | .scanning _ (sub :: _) => (m.listeners call.session sub).map ListenerModel.future
    | _ => none
  | .checked =>
    match call.pc with
    | .checked _ sub listener _ false => m.toCancel call.session sub listener.coordinatorId
    | _ => none
  | .bypass (some true) =>
    match call.pc with
    | .bypassing _ sub listener => m.toCancel call.session sub listener.coordinatorId
    | _ => none
  | _ => none

/-- The future of the listener that a step of `resolve` delivers its update to. -/
def ResolveCall.deliversTo (call : ResolveCall C Update Metadata) : ResolveEvent → Option CallId
  | .bypass (some false) =>
    match call.pc with
    | .bypassing _ _ listener => some listener.future
    | _ => none
  | _ => none

/-- The future of the listener that a step of `cancel` finds. -/
def CancelCall.looksUp (m : Shared C Update Metadata) (call : CancelCall C Update) :
    CancelEvent → Option CallId
  | .head =>
    match call.pc with
    | .cancelling => m.toCancel call.session call.key call.coordinatorId
    | _ => none
  | _ => none

/-- The future of the listener that a step finds in a map, to cancel it or to take it as a
    candidate. -/
def State.looksUp (s : State C Update Metadata) : Label C Update Metadata → Option CallId
  | .listen c e => (s.listens c).bind (ListenCall.looksUp s.shared · e)
  | .resolve r e => (s.resolves r).bind (ResolveCall.looksUp s.shared · e)
  | .cancel x e => (s.cancels x).bind (CancelCall.looksUp s.shared · e)
  | _ => none

/-- The future of the listener that a step delivers an update to. -/
def State.deliversTo (s : State C Update Metadata) : Label C Update Metadata → Option CallId
  | .resolve r e => (s.resolves r).bind (ResolveCall.deliversTo · e)
  | _ => none

section LooksUp

variable {m : Shared C Update Metadata} {s : State C Update Metadata}
  {call : ListenCall C Update Metadata} {rc : ResolveCall C Update Metadata}
  {xc : CancelCall C Update} {key sub : ListenerKey} {subs : List ListenerKey}
  {listener : ListenerModel C.Token Metadata} {c : CallId}

theorem Shared.toCancel_of_none {σ : Sess} {cid : Option C.Token}
    (hl : m.listeners σ key = none) : m.toCancel σ key cid = none := by
  simp only [toCancel, hl]

theorem Shared.toCancel_of_some {σ : Sess} {cid : Option C.Token}
    (hl : m.listeners σ key = some listener) : m.toCancel σ key cid =
      if cid = none ∨ listener.coordinatorId = cid then some listener.future else none := by
  simp only [toCancel, hl]

theorem ListenCall.looksUp_looked (hpc : call.pc = .looked true) (hpol : call.policy = .replace) :
    call.looksUp m .looked = m.toCancel call.session call.key none := by
  simp only [looksUp, hpc, hpol]

/-- A call that is to reject a duplicate, or has found none, goes for no future. -/
theorem ListenCall.looksUp_eq_none (h : call.pc = .looked true → call.policy ≠ .replace) :
    call.looksUp m .looked = none := by
  rw [looksUp]
  split
  · next hpc hpol => exact absurd hpol (h hpc)
  · rfl

theorem ResolveCall.looksUp_scan (hpc : rc.pc = .scanning key (sub :: subs)) :
    rc.looksUp m .scan = (m.listeners rc.session sub).map ListenerModel.future := by
  simp only [looksUp, hpc]

theorem ResolveCall.looksUp_scanned (hpc : rc.pc = .scanning key []) :
    rc.looksUp m .scan = none := by
  simp only [looksUp, hpc]

theorem ResolveCall.looksUp_superseded (hpc : rc.pc = .checked key sub listener subs false) :
    rc.looksUp m .checked = m.toCancel rc.session sub listener.coordinatorId := by
  simp only [looksUp, hpc]

theorem ResolveCall.looksUp_owned (hpc : rc.pc = .checked key sub listener subs true) :
    rc.looksUp m .checked = none := by
  simp only [looksUp, hpc]

theorem ResolveCall.looksUp_bypass (hpc : rc.pc = .bypassing key sub listener) :
    rc.looksUp m (.bypass (some true)) =
      m.toCancel rc.session sub listener.coordinatorId := by
  simp only [looksUp, hpc]

theorem ResolveCall.deliversTo_bypass (hpc : rc.pc = .bypassing key sub listener) :
    rc.deliversTo (.bypass (some false)) = some listener.future := by
  simp only [deliversTo, hpc]

theorem CancelCall.looksUp_head (hpc : xc.pc = .cancelling) :
    xc.looksUp m .head = m.toCancel xc.session xc.key xc.coordinatorId := by
  simp only [looksUp, hpc]

theorem State.looksUp_listen {e : ListenEvent} (hc : s.listens c = some call) :
    s.looksUp (.listen c e) = call.looksUp s.shared e := by
  rw [looksUp, hc, Option.bind_some]

theorem State.looksUp_resolve {e : ResolveEvent} (hc : s.resolves c = some rc) :
    s.looksUp (.resolve c e) = rc.looksUp s.shared e := by
  rw [looksUp, hc, Option.bind_some]

theorem State.looksUp_cancel {e : CancelEvent} (hc : s.cancels c = some xc) :
    s.looksUp (.cancel c e) = xc.looksUp s.shared e := by
  rw [looksUp, hc, Option.bind_some]

theorem State.deliversTo_resolve {e : ResolveEvent} (hc : s.resolves c = some rc) :
    s.deliversTo (.resolve c e) = rc.deliversTo e := by
  rw [deliversTo, hc, Option.bind_some]

end LooksUp

/-- The steps find the futures they go for pending. -/
structure FindsPending (s : State C Update Metadata) (l : Label C Update Metadata) : Prop where
  lookup : ∀ c, s.looksUp l = some c → s.shared.futures c = .pending
  delivery : ∀ c, s.deliversTo l = some c → s.shared.futures c = .pending

/-- The condition that done-callbacks come first: nothing finds a listener in a map while
    its done-callback is due, and neither a timer nor a cancellation comes between the
    finding of a listener and the delivery of the update. -/
structure CallbacksFirst (s : State C Update Metadata) (l : Label C Update Metadata) : Prop where
  /-- The listener found has no done-callback that is due. -/
  lookup : ∀ c, s.looksUp l = some c → s.shared.callbacks c = false
  /-- The call of the listener still waits, uninterrupted. -/
  delivery : ∀ c, s.deliversTo l = some c →
    ∃ call t, s.listens c = some call ∧ call.pc = .waiting t .none

variable [DecidableEq Sess] {m m' : Shared C Update Metadata} {a : Mutex.Action ℤ}
  {s s' : State C Update Metadata} {l : Label C Update Metadata}
  {P : State C Update Metadata → Label C Update Metadata → Prop}

omit [DecidableEq Sess] in
theorem Shared.of_toCancel {σ : Sess} {key : ListenerKey} {cid : Option C.Token} {c : CallId}
    (h : m.toCancel σ key cid = some c) :
    ∃ listener, m.listeners σ key = some listener ∧ listener.future = c := by
  cases hl : m.listeners σ key with
  | none => exact absurd ((toCancel_of_none hl).symm.trans h) nofun
  | some listener =>
    rw [toCancel_of_some hl] at h
    split at h
    · exact ⟨listener, rfl, Option.some.inj h⟩
    · exact absurd h nofun

omit [DecidableEq Sess] in
/-- What a step finds is in a map. -/
theorem State.of_looksUp {c : CallId} (h : s.looksUp l = some c) :
    ∃ σ k listener, s.shared.listeners σ k = some listener ∧ listener.future = c := by
  cases l with
  | listen c' e =>
    obtain ⟨call, _, h⟩ := Option.bind_eq_some_iff.1 h
    cases e with
    | looked =>
      rw [ListenCall.looksUp] at h
      split at h
      · exact ⟨_, _, Shared.of_toCancel h⟩
      · exact absurd h nofun
    | _ => exact absurd h nofun
  | resolve r e =>
    obtain ⟨call, _, h⟩ := Option.bind_eq_some_iff.1 h
    unfold ResolveCall.looksUp at h
    split at h
    · split at h
      · obtain ⟨listener, hl, hf⟩ := Option.map_eq_some_iff.1 h
        exact ⟨_, _, listener, hl, hf⟩
      · exact absurd h nofun
    · split at h
      · exact ⟨_, _, Shared.of_toCancel h⟩
      · exact absurd h nofun
    · split at h
      · exact ⟨_, _, Shared.of_toCancel h⟩
      · exact absurd h nofun
    · exact absurd h nofun
  | cancel x e =>
    obtain ⟨call, _, h⟩ := Option.bind_eq_some_iff.1 h
    cases e with
    | head =>
      rw [CancelCall.looksUp] at h
      split at h
      · exact ⟨_, _, Shared.of_toCancel h⟩
      · exact absurd h nofun
    | _ => exact absurd h nofun
  | _ => exact absurd h nofun

omit [DecidableEq Sess] in
theorem State.deliversTo_eq_none (h : ∀ r, l ≠ .resolve r (.bypass (some false))) :
    s.deliversTo l = none := by
  cases l with
  | resolve r e =>
    rw [deliversTo, Option.bind_eq_none_iff]
    intro call _
    unfold ResolveCall.deliversTo
    split
    · exact absurd rfl (h r)
    · rfl
  | _ => rfl

omit [DecidableEq Sess] in
/-- The call that delivers has the listener as its candidate. -/
theorem State.of_deliversTo {c : CallId} (h : s.deliversTo l = some c) :
    ∃ r call k listener, s.resolves r = some call ∧ call.candidate = some (k, listener) ∧
      listener.future = c := by
  cases l with
  | resolve r e =>
    obtain ⟨call, hr, h⟩ := Option.bind_eq_some_iff.1 h
    unfold ResolveCall.deliversTo at h
    split at h
    · split at h
      · rename_i pc
        exact ⟨r, call, _, _, hr, by rw [ResolveCall.candidate, pc], Option.some.inj h⟩
      · cases h
    · cases h
  | _ => cases h

omit [DecidableEq Sess] in
/-- A step that delivers nothing, where no done-callback is due, meets the condition. -/
theorem CallbacksFirst.of_callbacks (hcb : ∀ c, s.shared.callbacks c = false)
    (h : ∀ r, l ≠ .resolve r (.bypass (some false))) : CallbacksFirst s l :=
  ⟨fun c _ => hcb c, fun _ hc => absurd ((State.deliversTo_eq_none h).symm.trans hc) nofun⟩

/-! ### The done-callbacks that are due -/

omit [DecidableEq Sess] in
/-- A future that is done has its done-callback scheduled. -/
def Shared.Due (m : Shared C Update Metadata) (c : CallId) : Prop :=
  m.futures c ≠ .pending → m.callbacks c = true

namespace Shared.Due

variable {c c' : CallId}

omit [DecidableEq Sess] in
/-- A completion schedules the done-callback. -/
theorem complete (h : m.Due c) {f : Future Update} : (m.complete c' f).Due c := by
  intro hd
  by_cases hc : c = c'
  · rw [complete_callbacks, hc, Function.update_self]
  · rw [complete_futures, Function.update_of_ne hc] at hd
    rw [complete_callbacks, Function.update_of_ne hc]
    exact h hd

omit [DecidableEq Sess] in
theorem failWaiter (h : m.Due c) {o : Outcome Update Update} : (m.failWaiter c' o).Due c := by
  rcases m.failWaiter_eq c' o with he | ⟨_, _, he⟩
  · rwa [he]
  · exact he ▸ h.complete

omit [DecidableEq Sess] in
theorem cancelFuture (h : m.Due c) : (m.cancelFuture c').Due c := by
  rcases m.cancelFuture_eq c' with ⟨_, he⟩ | ⟨_, he⟩
  · rwa [he]
  · exact he ▸ h.complete

theorem setListener (h : m.Due c) {σ : Sess} {key : ListenerKey}
    {listener : Option (ListenerModel C.Token Metadata)} : (m.setListener σ key listener).Due c :=
  h

theorem cleanupListen (h : m.Due c) {σ : Sess} {key : ListenerKey} :
    (m.cleanupListen σ key c').Due c := by
  rcases m.cleanupListen_eq σ key c' with ⟨he, _⟩ | ⟨he, _⟩
  · rwa [he]
  · exact he ▸ h.setListener

theorem cancel (h : m.Due c) {σ : Sess} {key : ListenerKey} {dup : Bool} {cid : Option C.Token} :
    (m.cancel σ key dup cid).1.Due c := by
  rcases m.cancel_cases σ key dup cid with
    ⟨_, he⟩ | ⟨_, _, ⟨_, _, he⟩ | ⟨_, ⟨_, he⟩ | ⟨_, he⟩⟩⟩
  · exact he ▸ h
  · exact he ▸ h
  · exact he ▸ h.setListener
  · rw [he]
    exact h.setListener.complete

end Shared.Due

/-- A done-callback that is due stays so, until it runs. -/
theorem Step.due (h : Step s l s') {c : CallId} (hl : l ≠ .listen c .callback)
    (hd : s.shared.Due c) : s'.shared.Due c := by
  cases h with
  | @listen c' _ _ _ _ _ _ step =>
    cases step with
    | replace | replaceInvalid => exact hd.cancel
    | timer | interruptWait => exact hd.cancelFuture
    | wake => exact hd.failWaiter.cleanupListen
    | callback =>
      intro hdone
      have hc : c ≠ c' := fun hc => hl (hc ▸ rfl)
      rw [Shared.callback, Shared.cleanupListen_futures] at hdone
      simp only [Shared.callback, Function.update_of_ne hc]
      exact hd hdone
    | _ => exact hd
  | resolve _ step =>
    cases step with
    | superseded | supersededInvalid | bypass | bypassStale | bypassInvalid => exact hd.cancel
    | deliver => exact hd.complete
    | _ => exact hd
  | cancel _ step =>
    cases step with
    | stale | invalid | onlyLocal | proceed => exact hd.cancel
    | _ => exact hd
  | _ => exact hd

/-- In a reachable state, the listeners in the maps are pending, or have their done-callback
    due. -/
theorem due_of_reachable (h : (listenerLts C Update Metadata).ReachableUnder P s) :
    ∀ σ k listener, s.shared.listeners σ k = some listener → s.shared.Due listener.future := by
  refine h.invariant_of_reachable (I := fun s => ∀ σ k listener,
    s.shared.listeners σ k = some listener → s.shared.Due listener.future)
    (by rintro _ rfl _ _ _ hl; exact absurd hl nofun) ?_
  intro s l s' hr ih _ hst σ k listener hl
  rcases hst.shrinks with hs | ⟨c, call, t, rfl, hc, hpc, hc', hm⟩
  · have hl₀ := hs.of_some hl
    refine hst.due ?_ (ih σ k listener hl₀)
    -- Its done-callback would have removed it.
    rintro rfl
    obtain ⟨call, _, _, hc, _, rfl, rfl, _⟩ := waited_of_reachable hr σ k listener hl₀
    cases hst with
    | listen running step =>
      obtain rfl := Option.some.inj (running.symm.trans hc)
      cases step with
      | callback => exact Shared.cleanupListen_self hl rfl
  · rw [hm] at hl ⊢
    rw [Shared.setListener_apply] at hl
    split at hl
    · -- The future of the listener just stored is pending.
      obtain rfl := Option.some.inj hl
      refine fun hd => absurd ((timely_of_reachable hr).pending c fun call' hc' => ?_) hd
      obtain rfl := Option.some.inj (hc.symm.trans hc')
      rw [ListenCall.stored, hpc]
    · exact ih σ k listener hl

/-! ### The listeners found by `resolve` -/

/-- A step that leaves a call of `resolve` with a candidate changes nothing that is shared,
    and has found it in the map, unless it was there. -/
theorem ResolveCall.Step.finds_candidate {r : CallId} {call : ResolveCall C Update Metadata}
    {e : ResolveEvent} {pc : ResolvePc C.Token Update Metadata} (h : call.Step r m e a m' pc)
    {k : ListenerKey} {listener : ListenerModel C.Token Metadata}
    (hk : ResolveCall.candidate { call with pc := pc } = some (k, listener)) :
    m' = m ∧ (m.listeners call.session k = some listener ∧
      call.looksUp m e = some listener.future ∨ call.candidate = some (k, listener)) := by
  cases h with
  | scan pc found =>
    cases hk
    exact ⟨rfl, .inl ⟨found, by simp only [ResolveCall.looksUp, pc, found, Option.map_some]⟩⟩
  | check pc | owned pc =>
    rw [ResolveCall.candidate, pc]
    exact ⟨rfl, .inr hk⟩
  | _ => cases hk

omit [DecidableEq Sess] in
/-- A call that has a candidate holds the chat lock of its key. -/
theorem ResolveCall.holds_of_candidate {call : ResolveCall C Update Metadata} {k : ListenerKey}
    {listener : ListenerModel C.Token Metadata} (h : call.candidate = some (k, listener))
    (hs : call.Scans) : call.holds = some k.chatId := by
  obtain ⟨_, _, pc⟩ := call
  cases pc with
  | checking | checked =>
    cases h
    exact congrArg some (ListenerKey.chatId_of_mem_subKeys (List.cons_subset.1 hs).1).symm
  | bypassing =>
    cases h
    exact congrArg some (ListenerKey.chatId_of_mem_subKeys hs).symm
  | _ => exact absurd h nofun

/-- A call that waits uninterrupted after its step did so before, unless it has just stored
    its listener. -/
theorem ListenCall.Step.waits {c : CallId} {call : ListenCall C Update Metadata} {e : ListenEvent}
    {pc : ListenPc C.Token Update} (h : call.Step c m e a m' pc) {t t' : C.Token}
    (ht : call.stored = some t) (hpc : pc = .waiting t' .none) :
    call.pc = .waiting t' .none ∧ e = .callback := by
  cases h with
  | store pc =>
    rw [ListenCall.stored, pc] at ht
    cases ht
  | callback => exact ⟨hpc, rfl⟩
  | _ => cases hpc

/-- So no step of its own but its done-callback leaves it waiting. -/
theorem Step.waits (h : Step s l s') {c : CallId} {call call' : ListenCall C Update Metadata}
    {t t' : C.Token} (hc : s.listens c = some call) (ht : call.stored = some t)
    (hc' : s'.listens c = some call') (hpc' : call'.pc = .waiting t' .none) :
    call.pc = .waiting t' .none ∧ ∀ e, l = .listen c e → e = .callback := by
  rcases h.listen_next hc with ⟨h', hl⟩ | ⟨e, _, pc, rfl, _, hs, h'⟩
  · obtain rfl := Option.some.inj (h'.symm.trans hc')
    refine ⟨hpc', ?_⟩
    rintro e rfl
    exact absurd rfl hl
  · obtain rfl := Option.some.inj (h'.symm.trans hc')
    obtain ⟨hpc, rfl⟩ := hs.waits ht hpc'
    refine ⟨hpc, fun e' he => ?_⟩
    cases he
    rfl

/-- A future is completed by its own call, or by a call that holds the chat lock of its key. -/
theorem Completes.holds {c : CallId} {f : Future Update} {call : ListenCall C Update Metadata}
    (h : Completes s c l f) (hr : (listenerLts C Update Metadata).ReachableUnder P s)
    (hc : s.listens c = some call) : (∃ e, l = .listen c e ∧ e ≠ .callback) ∨
      ∃ o, l.actor = some o ∧ s.holds o = some call.key.chatId := by
  have hscans := scans_of_reachable hr
  cases h with
  | reach _ _ he => exact .inl ⟨_, rfl, by rcases he with rfl | rfl <;> exact nofun⟩
  | fail => exact .inl ⟨_, rfl, nofun⟩
  | cancel actor lock found hf =>
    obtain ⟨call', _, _, hc', _, _, rfl, _⟩ := waited_of_reachable hr _ _ _ found
    obtain rfl := Option.some.inj (hc.symm.trans (hf ▸ hc'))
    exact .inr ⟨_, actor, lock hscans⟩
  | @deliver r rc _ k listener hrc pc hf =>
    have hk : rc.candidate = some (k, listener) := by rw [ResolveCall.candidate, pc]
    obtain ⟨call', _, hc', _, _, rfl, _⟩ := candidates_of_reachable hr r rc k listener hrc hk
    obtain rfl := Option.some.inj (hc.symm.trans (hf ▸ hc'))
    refine .inr ⟨.resolve r, rfl, ?_⟩
    rw [State.holds, hrc, Option.bind_some, ResolveCall.holds_of_candidate hk (hscans r rc hrc)]

/-- In the runs under the condition, the candidates of `resolve` whose calls wait, and are
    not interrupted, are pending. -/
theorem pending_of_candidate (h : (listenerLts C Update Metadata).ReachableUnder CallbacksFirst s) :
    ∀ r rc k listener call t, s.resolves r = some rc → rc.candidate = some (k, listener) →
      s.listens listener.future = some call → call.pc = .waiting t .none →
        s.shared.futures listener.future = .pending := by
  refine h.invariant_of_reachable (I := fun s => ∀ r rc k listener call t,
    s.resolves r = some rc → rc.candidate = some (k, listener) →
      s.listens listener.future = some call → call.pc = .waiting t .none →
        s.shared.futures listener.future = .pending)
    (by rintro _ rfl _ _ _ _ _ _ hr; exact absurd hr nofun) ?_
  intro s l s' hr ih hp hst r rc' k listener call' t hrc' hk hc' hpc'
  rcases hst.resolve_cases hrc' with
    ⟨hrc, hl⟩ | ⟨_, _, _, _, _, rfl⟩ | ⟨rc, e, _, _, hrc, rfl, _, hs, rfl⟩
  · -- The step is that of another call.
    obtain ⟨call, t₀, hc, ht₀, _, hkey, _⟩ := candidates_of_reachable hr r rc' k listener hrc hk
    obtain ⟨hpc, hown⟩ := hst.waits hc ht₀ hc' hpc'
    rcases hst.futures_cases listener.future with he | ⟨_, hcomp⟩
    · rw [he, ih r rc' k listener call t hrc hk hc hpc]
    · exfalso
      rcases hcomp.holds hr hc with ⟨e, he, hne⟩ | ⟨o, ho, hlock⟩
      · exact hne (hown e he)
      · -- The chat lock is that of the call of `resolve`.
        refine hl (ho.trans (congrArg some ((guards_of_reachable hr).unique hlock ?_)))
        rw [State.holds, hrc, Option.bind_some,
          ResolveCall.holds_of_candidate hk (scans_of_reachable hr r rc' hrc), hkey]
  · cases hk
  · -- The candidate is found in the map, or was the candidate.
    obtain ⟨hm, ⟨hl, hlook⟩ | hk₀⟩ := hs.finds_candidate hk
    · rw [hm]
      have hcb := hp.lookup listener.future ((State.looksUp_resolve hrc).trans hlook)
      by_contra hd
      exact absurd (hcb.symm.trans (due_of_reachable hr _ _ _ hl hd)) Bool.false_ne_true
    · have hsame := hst.same_of_ne (o := .listen listener.future) fun h => by cases h
      rw [hm]
      exact ih r rc k listener call' t hrc hk₀ (hsame.symm.trans hc') hpc'

/-- In the runs under the condition, a step finds the futures it goes for pending if and
    only if it meets the condition. -/
theorem findsPending_iff_callbacksFirst
    (h : (listenerLts C Update Metadata).ReachableUnder CallbacksFirst s) :
    FindsPending s l ↔ CallbacksFirst s l := by
  constructor
  · intro hp
    refine ⟨fun c hc => ?_, fun c hc => ?_⟩
    · rw [← Bool.not_eq_true]
      exact fun hcb => (timely_of_reachable h).scheduled c hcb (hp.lookup c hc)
    · obtain ⟨r, rc, k, listener, hrc, hk, rfl⟩ := State.of_deliversTo hc
      obtain ⟨call, t, hcall, ht, _⟩ := candidates_of_reachable h r rc k listener hrc hk
      exact ⟨call, t, hcall, ListenCall.waiting_of_not_settled ht fun hs =>
        (timely_of_reachable h).done _ call hcall hs (hp.delivery _ hc)⟩
  · intro hp
    refine ⟨fun c hc => ?_, fun c hc => ?_⟩
    · obtain ⟨σ, k, listener, hl, rfl⟩ := State.of_looksUp hc
      by_contra hd
      exact absurd ((hp.lookup _ hc).symm.trans (due_of_reachable h σ k listener hl hd)) nofun
    · obtain ⟨call, t, hcall, hpc⟩ := hp.delivery c hc
      obtain ⟨r, rc, k, listener, hrc, hk, rfl⟩ := State.of_deliversTo hc
      exact pending_of_candidate h r rc k listener call t hrc hk hcall hpc

end Pyroflow
