import Pyroflow.Listener.Progress
import Pyroflow.Listener.Registration

/-!
# The stop of a listener

`UpdateListener.stop`. It makes a call of `cancel` for each key that has a listener when it
starts, all at once, whose exceptions it lets pass, and stops its coordinator when they have
ended (`State.Stopped`). While these calls go on, any other calls may start, go on and end.

A listener that was there when it started may be gone by the time its call of `cancel` comes to
look, and another one may be there. But then its call of `listen` has been woken up: as long as
a call waits on its future, its listener stays in the map (`kept_of_reachable`). So the stop
wakes up every call of `listen` that was waiting (`stop_wakes`), and these calls come to their
end, provided that its calls of `cancel` run: one whose task is cancelled, or that gives up on
the chat lock (with Redis, after `lock_blocking_timeout`), wakes up nobody, and `stop` lets this
pass, too.
-/

namespace Pyroflow

variable {Sess : Type} {C : ListenerCoordinator Sess} {Update Metadata : Type}

/-- The call has ended, having run: it was not cancelled at the chat lock, and did not give up on
    it. -/
def CancelCall.Completed (call : CancelCall C Update) : Prop :=
  ∃ o, call.pc = .ended o ∧ o ≠ .raised .cancelledError

/-- The call has been through the local part of `_cancel`. -/
def CancelCall.Headed (call : CancelCall C Update) : Prop :=
  call.pc = .coordinator ∨ call.Completed

/-- `UpdateListener.stop` of a session, started in the state `s`, comes to stop the coordinator in
    the state `s'`: the calls of `cancel` it has made have ended. -/
structure State.Stopped (s s' : State C Update Metadata) (σ : Sess) (cancels : ListenerKey → CallId) :
    Prop where
  new : ∀ k, s.shared.listeners σ k ≠ none → s.cancels (cancels k) = none
  ended : ∀ k, s.shared.listeners σ k ≠ none → ∃ call, s'.cancels (cancels k) = some call ∧
    call.Completed ∧ call.session = σ ∧ call.key = k ∧ call.cancelCoordinator = true ∧
    call.isDuplicate = false ∧ call.coordinatorId = none ∧ call.isSignal = false

variable [DecidableEq Sess] {s s' : State C Update Metadata} {l : Label C Update Metadata}
  {c x : CallId}

/-- `_cancel` wakes up the call whose listener it finds. -/
theorem Shared.futures_cancel_ne {m : Shared C Update Metadata} {σ : Sess} {k : ListenerKey}
    {dup : Bool} {listener : ListenerModel C.Token Metadata}
    (hl : m.listeners σ k = some listener) :
    (m.cancel σ k dup none).1.futures listener.future ≠ .pending := by
  rcases m.cancel_cases σ k dup none with
    ⟨hn, _⟩ | ⟨l, hl', ⟨hne, _⟩ | ⟨_, ⟨hd, h⟩ | ⟨_, h⟩⟩⟩
  · exact absurd (hn.symm.trans hl) nofun
  · exact absurd rfl hne
  · obtain rfl := Option.some.inj (hl'.symm.trans hl)
    rw [h]
    exact hd
  · obtain rfl := Option.some.inj (hl'.symm.trans hl)
    rw [h, complete_futures, Function.update_self]
    exact nofun

/-- So does a call of `cancel`, once it has been through the local part of `_cancel`. -/
theorem CancelCall.Step.wakes {m m' : Shared C Update Metadata} {a : Mutex.Action ℤ}
    {call : CancelCall C Update} {e : CancelEvent} {pc : CancelPc Update}
    (h : call.Step m e a m' pc) (hid : call.coordinatorId = none) (hnot : ¬call.Headed)
    (hheaded : CancelCall.Headed { call with pc := pc }) {listener : ListenerModel C.Token Metadata}
    (hl : m.listeners call.session call.key = some listener) :
    m'.futures listener.future ≠ .pending := by
  cases h with
  | stale | invalid | onlyLocal | proceed =>
    rw [hid]
    exact Shared.futures_cancel_ne hl
  | lock => rcases hheaded with h | ⟨_, h, _⟩ <;> exact absurd h nofun
  | coordinator pc => exact absurd (.inl pc) hnot
  | interrupt =>
    rcases hheaded with h | ⟨_, h, hne⟩
    · exact absurd h nofun
    · exact absurd (CancelPc.ended.inj h).symm hne

omit [DecidableEq Sess] in
theorem ListenCall.stored_of_waiting {call : ListenCall C Update Metadata} {t : C.Token}
    {i : Interrupt} (hpc : call.pc = .waiting t i) : call.stored = some t := by
  rw [ListenCall.stored, hpc]

/-- A call that waits on a pending future has its listener in the map. -/
theorem State.Stored.found (hr : (listenerLts C Update Metadata).ReachableUnder NoStop s) {σ : Sess}
    {k : ListenerKey} {listener : ListenerModel C.Token Metadata} (h : s.Stored σ k listener)
    (hp : s.shared.futures listener.future = .pending) :
    s.shared.listeners σ k = some listener := by
  obtain ⟨call, t, hc, ht, rfl, rfl, hl⟩ := h
  have hwait := call.waiting_of_not_settled ht fun hs => (timely_of_reachable hr).done _ _ hc hs hp
  rw [kept_of_reachable hr _ call t .none hc hwait hp, hl]

/-- In a run, a call of `cancel` without a token that starts, and comes to be through the local part
    of `_cancel`, has woken up the call that had its listener under the key. -/
theorem wakes_of_headed {σ : Sess} {k : ListenerKey} {listener : ListenerModel C.Token Metadata}
    (h : (listenerLts C Update Metadata).ReachableUnder NoStop s) (hs : s.Stored σ k listener)
    (hx : s.cancels x = none) (hrun : (listenerLts C Update Metadata).RunUnder NoStop s s')
    {call : CancelCall C Update} (hcall : s'.cancels x = some call) (hσ : call.session = σ)
    (hk : call.key = k) (hid : call.coordinatorId = none) (hheaded : call.Headed) :
    s'.shared.futures listener.future ≠ .pending := by
  have hinv := hrun.invariant (I := fun s' =>
    ((listenerLts C Update Metadata).ReachableUnder NoStop s' ∧ s'.Stored σ k listener) ∧
      ∀ call, s'.cancels x = some call → call.session = σ → call.key = k →
        call.coordinatorId = none → call.Headed → s'.shared.futures listener.future ≠ .pending)
    ⟨⟨h, hs⟩, fun call hcall => absurd (hx.symm.trans hcall) nofun⟩ ?_
  · exact hinv.2 call hcall hσ hk hid hheaded
  · rintro s₁ l s₂ ⟨⟨hr, hs⟩, ih⟩ hp hst
    refine ⟨⟨hr.tail hp hst, hst.stored hs⟩, fun call' hcall' hσ hk hid hheaded => ?_⟩
    have hdone (hd : s₁.shared.futures listener.future ≠ .pending) :
        s₂.shared.futures listener.future ≠ .pending := by rwa [hst.done_stays hd]
    rcases hst.cancel_cases hcall' with
      ⟨hcall, _⟩ | ⟨_, _, hpc, _⟩ | ⟨call, e, a, pc, hcall, _, _, step, rfl⟩
    · exact hdone (ih call' hcall hσ hk hid hheaded)
    · rcases hheaded with h | ⟨_, h, _⟩ <;> exact absurd (hpc.symm.trans h) nofun
    · by_cases hp : s₁.shared.futures listener.future = .pending
      · by_cases hnot : call.Headed
        · exact hdone (ih call hcall hσ hk hid hnot)
        · subst hσ hk
          exact step.wakes hid hnot hheaded (hs.found hr hp)
      · exact hdone hp

/-- When a session comes to stop its coordinator, its calls of `cancel` having all run, and no
    coordinator having been stopped meanwhile, the calls of `listen` that waited when the stop
    began have been woken up, and have ended as soon as the calls are at rest. -/
theorem stop_wakes {σ : Sess} {cancels : ListenerKey → CallId}
    (h : (listenerLts C Update Metadata).ReachableUnder NoStop s)
    (hrun : (listenerLts C Update Metadata).RunUnder NoStop s s')
    (hstop : s.Stopped s' σ cancels) {call : ListenCall C Update Metadata} {t : C.Token}
    {i : Interrupt} (hc : s.listens c = some call) (hpc : call.pc = .waiting t i)
    (hσ : call.session = σ) :
    s'.shared.futures c ≠ .pending ∧ ∀ s'', (listenerLts C Update Metadata).Run s' s'' →
      s''.AtRest → ∃ call' o, s''.listens c = some call' ∧ call'.pc = .ended (some t) o := by
  have hstored : s.Stored call.session call.key ⟨call.key, call.metadata, c, some t⟩ :=
    ⟨call, t, hc, ListenCall.stored_of_waiting hpc, rfl, rfl, rfl⟩
  have hdone : s'.shared.futures c ≠ .pending := by
    by_cases hp : s.shared.futures c = .pending
    · have hne : s.shared.listeners σ call.key ≠ none := by
        rw [← hσ, hstored.found h hp]
        exact nofun
      obtain ⟨xcall, hx, hcomp, hσ', hk, -, -, hid, -⟩ := hstop.ended call.key hne
      exact wakes_of_headed h hstored (hstop.new call.key hne) hrun hx (hσ'.trans hσ.symm) hk hid
        (.inr hcomp)
    · exact hrun.invariant (I := fun s => s.shared.futures c ≠ .pending) hp
        fun _ _ _ hd _ hst => by rwa [Step.done_stays hst hd]
  refine ⟨hdone, fun s'' hrun' hrest => ?_⟩
  have hlater : s''.shared.futures c ≠ .pending ∧
      s''.Stored call.session call.key ⟨call.key, call.metadata, c, some t⟩ := by
    refine hrun'.invariant (I := fun s => s.shared.futures c ≠ .pending ∧
      s.Stored call.session call.key ⟨call.key, call.metadata, c, some t⟩) ⟨hdone, ?_⟩
      fun _ _ _ hi _ hst => ⟨by rw [Step.done_stays hst hi.1]; exact hi.1, Step.stored hst hi.2⟩
    exact hrun.invariant (I := fun s => s.Stored call.session call.key
      ⟨call.key, call.metadata, c, some t⟩) hstored fun _ _ _ hs _ hst => Step.stored hst hs
  obtain ⟨hd, call', t', hc', ht', -, -, hl⟩ := hlater
  obtain ⟨-, -, -, ht⟩ := ListenerModel.mk.inj hl
  obtain rfl := Option.some.inj ht
  rcases hrest.listens c call' hc' with ⟨t'', o, hended⟩ | ⟨_, _, hp⟩
  · obtain rfl : t'' = some t := by rwa [ListenCall.stored, hended] at ht'
    exact ⟨call', o, hc', hended⟩
  · exact absurd hp hd

/-- A call of `listen` waits, and the stop cancels it. -/
theorem stop_wakes_waiting : ∃ s s' : State memoryCoordinator String Unit,
    (listenerLts memoryCoordinator String Unit).ReachableUnder NoStop s ∧
    (listenerLts memoryCoordinator String Unit).RunUnder NoStop s s' ∧
    s.shared.futures 0 = .pending ∧ s.Stopped s' () (fun _ => 0) ∧
      s'.shared.futures 0 ≠ .pending ∧
      ∀ s'', (listenerLts memoryCoordinator String Unit).Run s' s'' → s''.AtRest →
        ∃ call' o, s''.listens 0 = some call' ∧ call'.pc = .ended (some (0 : ℕ)) o := by
  have h₀ : (listenerLts memoryCoordinator String Unit).ReachableUnder NoStop (.init ..) := .init rfl
  have h₁ := h₀.run (run_listen 0 () ⟨100, none, none⟩ none .reject
    (fun _ _ _ hl => hl.ne_stop) rfl rfl rfl rfl rfl)
  obtain ⟨s, hs, hlisten, hl, hx, hfree, hhead⟩ : ∃ s : State memoryCoordinator String Unit,
      (listenerLts memoryCoordinator String Unit).ReachableUnder NoStop s ∧
      s.listens 0 = some ⟨(), ⟨100, none, none⟩, none, .reject, .waiting (0 : ℕ) .none⟩ ∧
      (∀ k, s.shared.listeners () k ≠ none → k = ⟨100, none, none⟩) ∧ s.cancels 0 = none ∧
      s.locked 100 = false ∧ s.shared.futures 0 = .pending ∧
      (s.shared.cancel () ⟨100, none, none⟩ false none).2 = .proceed := ⟨_, h₁, rfl, fun k hk => by
    by_contra hne
    exact hk (Function.update_of_ne hne ..), rfl, rfl, rfl, rfl⟩
  have r₁ : (listenerLts memoryCoordinator String Unit).RunUnder NoStop s _ :=
    Lts.RunUnder.refl.tail (l := Label.startCancel 0 () ⟨100, none, none⟩ true false none)
      (by exact nofun) (.startCancel hx)
  have r₂ := r₁.tail (l := Label.cancel 0 .lock) (by exact nofun) (.cancel rfl (.lock rfl) hfree)
  have r₃ := r₂.tail (l := Label.cancel 0 .head) (by exact nofun)
    (.cancel rfl (.proceed rfl rfl hhead.2) trivial)
  have r₄ := r₃.tail (l := Label.cancel 0 .coordinator) (by exact nofun)
    (.cancel rfl (.coordinator rfl) trivial)
  have hstop {s' : State memoryCoordinator String Unit} (hcall : s'.cancels 0 =
      some ⟨(), ⟨100, none, none⟩, true, false, none, false, .ended (.returned true)⟩) :
      s.Stopped s' () (fun _ => 0) :=
    ⟨fun _ _ => hx, fun k hk => ⟨_, hcall, ⟨_, rfl, nofun⟩, rfl, (hl k hk).symm, rfl, rfl, rfl, rfl⟩⟩
  exact ⟨s, _, hs, r₄, hhead.1, hstop rfl, stop_wakes hs r₄ (hstop rfl) hlisten rfl rfl⟩

end Pyroflow
