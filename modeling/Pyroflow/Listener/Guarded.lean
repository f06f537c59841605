import Pyroflow.Coordinator.Memory
import Pyroflow.Coordinator.Redis
import Pyroflow.Listener.Runs
import Pyroflow.Listener.Shared

/-!
# Cancelling one generation

What one call of `cancel` does when nothing comes between (`Shared.cancelCall`), and what
its documentation promises of a call that names a generation by its token
(`Shared.CancelsGeneration`): it cancels the listener of that generation, or changes
nothing and returns `False`.

`_cancel` guards its local part only, and only if there is a local listener. Without one
it goes on to the coordinator as if no token had been given, and returns `True`. So the
promise is kept exactly on a key with a local listener which, if it has the token, is
still pending, and, if the coordinator is cancelled as well, is the one registered
(`Shared.Guarded`, `cancelsGeneration_iff`).
-/

namespace Pyroflow

variable {Sess : Type} {C : ListenerCoordinator Sess} {Update Metadata : Type}

/-! ### What a call of `cancel` does -/

namespace Shared

section

variable [DecidableEq Sess]

/-- How `_cancel` goes on after its local part. -/
def proceed (m : Shared C Update Metadata) (σ : Sess) (key : ListenerKey)
    (cancelCoordinator : Bool) : Head → Shared C Update Metadata × Outcome Update Bool
  | .stale => (m, .returned false)
  | .invalid => (m, .raised .invalidState)
  | .proceed =>
    (if cancelCoordinator then m.setBackend (C.cancel m.backend σ key).2 else m, .returned true)

/-- `_cancel`: what it leaves, and how it ends. -/
def cancelCall (m : Shared C Update Metadata) (σ : Sess) (key : ListenerKey)
    (cancelCoordinator isDuplicate : Bool) (coordinatorId : Option C.Token) :
    Shared C Update Metadata × Outcome Update Bool :=
  (m.cancel σ key isDuplicate coordinatorId).1.proceed σ key cancelCoordinator
    (m.cancel σ key isDuplicate coordinatorId).2

end

variable (m m' : Shared C Update Metadata) (σ : Sess) (key : ListenerKey)

/-- The promise of a call of `cancel` for the generation `t` of the key: a listener of
    this generation is removed and fails with `ListenerCancelled`, no other listener or
    future changes, and no other registration; without such a listener, nothing does. -/
inductive CancelsGeneration [DecidableEq Sess] (isDuplicate : Bool) (t : C.Token) :
    Outcome Update Bool → Prop
  | cancelled {l} (found : m.listeners σ key = some l) (token : l.coordinatorId = some t)
      (listeners : m'.listeners = (m.setListener σ key none).listeners)
      (futures : m'.futures = Function.update m.futures l.future
        (.exception (.listenerCancelled key isDuplicate)))
      (registry : ∀ k, C.current m'.backend k = C.current m.backend k ∨
        k = key ∧ C.current m.backend k = some t) :
      CancelsGeneration isDuplicate t (.returned true)
  | ignored (other : ∀ l, m.listeners σ key = some l → l.coordinatorId ≠ some t)
      (unchanged : m' = m) : CancelsGeneration isDuplicate t (.returned false)

/-- The key has a local listener. If it is of the generation `t`, it is still pending, and,
    where the coordinator is cancelled too, no other one is registered under the key. -/
def Guarded (cancelCoordinator : Bool) (t : C.Token) : Prop :=
  ∃ l, m.listeners σ key = some l ∧ (l.coordinatorId = some t →
    m.futures l.future = .pending ∧
    (cancelCoordinator = true → ∀ t', C.current m.backend key = some t' → t' = t))

variable {m m' σ key} [DecidableEq Sess] {cancelCoordinator isDuplicate : Bool} {t : C.Token}

/-- Without a local listener, the coordinator is cancelled all the same. -/
theorem cancelCall_of_none (hl : m.listeners σ key = none) {cid : Option C.Token} :
    m.cancelCall σ key cancelCoordinator isDuplicate cid =
      (if cancelCoordinator then m.setBackend (C.cancel m.backend σ key).2 else m,
        .returned true) := by
  rw [cancelCall, cancel, hl]
  rfl

/-- A listener of another generation is left alone. -/
theorem cancelCall_of_stale {l : ListenerModel C.Token Metadata}
    (hl : m.listeners σ key = some l) (ht : l.coordinatorId ≠ some t) :
    m.cancelCall σ key cancelCoordinator isDuplicate (some t) = (m, .returned false) := by
  simp only [cancelCall, cancel, hl]
  rw [if_pos ⟨Option.some_ne_none t, ht⟩]
  rfl

/-- A listener of the generation whose future is done is removed, and nothing else. -/
theorem cancelCall_of_done {l : ListenerModel C.Token Metadata}
    (hl : m.listeners σ key = some l) (ht : l.coordinatorId = some t)
    (hd : m.futures l.future ≠ .pending) :
    m.cancelCall σ key cancelCoordinator isDuplicate (some t) =
      (m.setListener σ key none, .raised .invalidState) := by
  simp only [cancelCall, cancel, hl]
  rw [if_neg fun h => h.2 ht, if_pos (Future.done_iff.2 hd)]
  rfl

/-- A pending listener of the generation is cancelled, and with it whatever is registered
    under its key. -/
theorem cancelCall_of_pending {l : ListenerModel C.Token Metadata}
    (hl : m.listeners σ key = some l) (ht : l.coordinatorId = some t)
    (hp : m.futures l.future = .pending) :
    m.cancelCall σ key cancelCoordinator isDuplicate (some t) =
      let m' := (m.setListener σ key none).complete l.future
        (.exception (.listenerCancelled key isDuplicate))
      (if cancelCoordinator then m'.setBackend (C.cancel m'.backend σ key).2 else m',
        .returned true) := by
  simp only [cancelCall, cancel, hl]
  rw [if_neg fun h => h.2 ht, hp]
  rfl

omit [DecidableEq Sess] in
/-- The registrations that are left, the coordinator being cancelled or not. -/
theorem current_cancelCoordinator (m : Shared C Update Metadata) :
    C.current (if cancelCoordinator then m.setBackend (C.cancel m.backend σ key).2 else m).backend =
      if cancelCoordinator then Function.update (C.current m.backend) key none
      else C.current m.backend := by
  cases cancelCoordinator with
  | false => rfl
  | true => exact ListenerCoordinator.current_cancel

/-- With a pending listener of the generation, the promise is kept unless the coordinator is
    cancelled while another generation is registered. -/
theorem cancelsGeneration_of_pending_iff {l : ListenerModel C.Token Metadata}
    (hl : m.listeners σ key = some l) (ht : l.coordinatorId = some t)
    (hp : m.futures l.future = .pending) :
    m.CancelsGeneration (m.cancelCall σ key cancelCoordinator isDuplicate (some t)).1 σ key
      isDuplicate t (m.cancelCall σ key cancelCoordinator isDuplicate (some t)).2 ↔
      (cancelCoordinator = true → ∀ t', C.current m.backend key = some t' → t' = t) := by
  rw [cancelCall_of_pending hl ht hp]
  constructor
  · -- The registration that is removed has to be of this generation.
    intro h hc t' ht'
    cases h with
    | cancelled _ _ _ _ registry =>
      have hk := registry key
      rw [current_cancelCoordinator, if_pos hc, Function.update_self] at hk
      rcases hk with hk | ⟨_, hk⟩
      · exact absurd (hk.trans ht') nofun
      · exact Option.some.inj (ht'.symm.trans hk)
  · intro h
    refine .cancelled hl ht ?_ ?_ fun k => ?_
    · cases cancelCoordinator <;> rfl
    · cases cancelCoordinator <;> rfl
    · rw [current_cancelCoordinator]
      split
      · next hc =>
        by_cases hk : k = key
        · subst hk
          rw [Function.update_self]
          cases hcur : C.current m.backend k with
          | none => exact .inl rfl
          | some t' => exact .inr ⟨rfl, congrArg some (h hc t' hcur)⟩
        · exact .inl (Function.update_of_ne hk ..)
      · exact .inl rfl

/-- The promise is kept exactly on a guarded key. -/
theorem cancelsGeneration_cancelCall_iff (m : Shared C Update Metadata) (σ : Sess)
    (key : ListenerKey) (cancelCoordinator isDuplicate : Bool) (t : C.Token) :
    m.CancelsGeneration (m.cancelCall σ key cancelCoordinator isDuplicate (some t)).1 σ key
      isDuplicate t (m.cancelCall σ key cancelCoordinator isDuplicate (some t)).2 ↔
      m.Guarded σ key cancelCoordinator t := by
  rw [Guarded]
  cases hl : m.listeners σ key with
  | none =>
    -- The call returns `True`, and there is nothing it should have cancelled.
    rw [cancelCall_of_none hl]
    refine iff_of_false (fun h => ?_) fun ⟨l, hl', _⟩ => absurd hl' nofun
    cases h with
    | cancelled found => exact absurd (hl.symm.trans found) nofun
  | some l =>
    simp only [Option.some.injEq, exists_eq_left']
    by_cases ht : l.coordinatorId = some t
    · by_cases hp : m.futures l.future = .pending
      · rw [cancelsGeneration_of_pending_iff hl ht hp]
        exact ⟨fun h _ => ⟨hp, h⟩, fun h => (h ht).2⟩
      · -- `set_exc` raises.
        rw [cancelCall_of_done hl ht hp]
        exact iff_of_false nofun fun h => hp (h ht).1
    · rw [cancelCall_of_stale hl ht]
      refine iff_of_true (.ignored (fun l' hl' => ?_) rfl) fun h => absurd h ht
      exact Option.some.inj (hl.symm.trans hl') ▸ ht

end Shared

/-! ### The runs of one call -/

section Runs

open Shared

variable [DecidableEq Sess] (x : CallId) (σ : Sess) (key : ListenerKey)
  (cancelCoordinator isDuplicate : Bool) (coordinatorId : Option C.Token)

/-- The labels of one such call of `cancel`, which is not cancelled itself. -/
inductive Label.CancelsAlone : Label C Update Metadata → Prop
  | start : CancelsAlone (.startCancel x σ key cancelCoordinator isDuplicate coordinatorId)
  | cancel {e : CancelEvent} (uninterrupted : e ≠ .interrupt) : CancelsAlone (.cancel x e)

/-- The runs of one such call of `cancel`, with nothing in between. -/
abbrev RunsCancel : State C Update Metadata → State C Update Metadata → Prop :=
  (listenerLts C Update Metadata).RunUnder fun _ l =>
    l.CancelsAlone x σ key cancelCoordinator isDuplicate coordinatorId

/-- What the call has done so far, from `m` on. -/
def CancelCall.Course (m : Shared C Update Metadata) (call : CancelCall C Update)
    (m' : Shared C Update Metadata) : Prop :=
  call.session = σ ∧ call.key = key ∧ call.cancelCoordinator = cancelCoordinator ∧
  call.isDuplicate = isDuplicate ∧ call.coordinatorId = coordinatorId ∧
  match call.pc with
  | .waitLock | .cancelling => m' = m
  | .coordinator => cancelCoordinator = true ∧
      m.cancel σ key isDuplicate coordinatorId = (m', .proceed)
  | .ended o => m.cancelCall σ key cancelCoordinator isDuplicate coordinatorId = (m', o)

variable {x σ key cancelCoordinator isDuplicate coordinatorId}

/-- A step keeps to the course. -/
theorem CancelCall.Step.course {m m₁ m' : Shared C Update Metadata} {call : CancelCall C Update}
    {e : CancelEvent} {a : Mutex.Action ℤ} {pc : CancelPc Update}
    (hst : call.Step m₁ e a m' pc) (he : e ≠ .interrupt)
    (h : call.Course σ key cancelCoordinator isDuplicate coordinatorId m m₁) :
    CancelCall.Course σ key cancelCoordinator isDuplicate coordinatorId m { call with pc := pc }
      m' := by
  obtain ⟨rfl, rfl, rfl, rfl, rfl, h⟩ := h
  refine ⟨rfl, rfl, rfl, rfl, rfl, ?_⟩
  cases hst with
  | lock pc =>
    simp only [pc] at h ⊢
    exact h
  | stale pc head | invalid pc head =>
    simp only [pc] at h ⊢
    subst h
    rw [cancelCall, head]
    rfl
  | onlyLocal pc only head =>
    simp only [pc] at h ⊢
    subst h
    rw [cancelCall, head, only]
    rfl
  | proceed pc both head =>
    simp only [pc] at h ⊢
    subst h
    exact ⟨both, Prod.ext rfl head⟩
  | coordinator pc =>
    simp only [pc] at h ⊢
    rw [cancelCall, h.2, h.1]
    rfl
  | interrupt => exact absurd rfl he

/-- In such a run, the call keeps to its course. -/
theorem course_of_runsCancel {s s' : State C Update Metadata} {call : CancelCall C Update}
    (hx : s.cancels x = none)
    (hrun : RunsCancel x σ key cancelCoordinator isDuplicate coordinatorId s s')
    (hcall : s'.cancels x = some call) :
    call.Course σ key cancelCoordinator isDuplicate coordinatorId s.shared s'.shared := by
  refine hrun.invariant_of_started (fun s => s.cancels x) State.shared hx ?_ ?_ hcall
  · intro s₁ l s₂ hnone hs hl hst
    cases hl with
    | start =>
      cases hst with
      | startCancel => exact ⟨_, Function.update_self .., rfl, rfl, rfl, rfl, rfl, hs⟩
    | cancel =>
      cases hst with
      | cancel running => exact absurd (hnone.symm.trans running) nofun
  · intro s₁ l s₂ call hcall hcourse hl hst
    cases hl with
    | start =>
      cases hst with
      | startCancel new => exact absurd (new.symm.trans hcall) nofun
    | cancel uninterrupted =>
      cases hst with
      | cancel running step =>
        obtain rfl := Option.some.inj (running.symm.trans hcall)
        exact ⟨_, Function.update_self .., step.course uninterrupted hcourse⟩

/-- When it has ended, it has done what `_cancel` does. -/
theorem cancelCall_of_ended {s s' : State C Update Metadata} {call : CancelCall C Update}
    {o : Outcome Update Bool} (hx : s.cancels x = none)
    (hrun : RunsCancel x σ key cancelCoordinator isDuplicate coordinatorId s s')
    (hcall : s'.cancels x = some call) (hpc : call.pc = .ended o) :
    s.shared.cancelCall σ key cancelCoordinator isDuplicate coordinatorId = (s'.shared, o) := by
  obtain ⟨_, _, _, _, _, hcourse⟩ := course_of_runsCancel hx hrun hcall
  rw [hpc] at hcourse
  exact hcourse

/-- With the chat lock free, the call has such a run to its end. -/
theorem exists_runsCancel_ended {s : State C Update Metadata} (hx : s.cancels x = none)
    (hfree : s.locked key.chatId = false) :
    ∃ s' call o, RunsCancel x σ key cancelCoordinator isDuplicate coordinatorId s s' ∧
      s'.cancels x = some call ∧ call.pc = .ended o := by
  have h₁ : RunsCancel x σ key cancelCoordinator isDuplicate coordinatorId s _ :=
    Lts.RunUnder.refl.tail .start (.startCancel hx)
  have h₂ := h₁.tail (l := Label.cancel x .lock) (.cancel nofun)
    (.cancel (Function.update_self ..) (.lock rfl) hfree)
  have tail {e a m pc} (hst : CancelCall.Step s.shared
      (⟨σ, key, cancelCoordinator, isDuplicate, coordinatorId, false, .cancelling⟩ :
        CancelCall C Update) e a m pc) (he : e ≠ .interrupt) (ha : ∀ locked, a.Enabled locked) :=
    h₂.tail (l := Label.cancel x e) (.cancel he)
      (.cancel (Function.update_self ..) hst (ha _))
  cases hhead : (s.shared.cancel σ key isDuplicate coordinatorId).2 with
  | stale =>
    exact ⟨_, _, _, tail (.stale rfl hhead) nofun fun _ => trivial, Function.update_self .., rfl⟩
  | invalid =>
    exact ⟨_, _, _, tail (.invalid rfl hhead) nofun fun _ => trivial, Function.update_self .., rfl⟩
  | proceed =>
    cases cancelCoordinator with
    | false =>
      exact ⟨_, _, _, tail (.onlyLocal rfl rfl hhead) nofun fun _ => trivial,
        Function.update_self .., rfl⟩
    | true =>
      have h₃ := tail (.proceed rfl rfl hhead) nofun fun _ => trivial
      have h₄ := h₃.tail (l := Label.cancel x .coordinator) (.cancel nofun)
        (.cancel (Function.update_self ..) (.coordinator rfl) trivial)
      exact ⟨_, _, _, h₄, Function.update_self .., rfl⟩

/-- A call of `cancel` for one generation keeps its promise exactly on a guarded key. From
    any state, a call that runs alone comes to its end once the chat lock is free, and when
    it has, it has cancelled the listener of the generation and nothing else, or there
    was none, nothing has changed, and it returns `False`, if and only if the key was
    guarded. -/
theorem cancelsGeneration_iff (s : State C Update Metadata) (x : CallId) (σ : Sess)
    (key : ListenerKey) (cancelCoordinator isDuplicate : Bool) (t : C.Token)
    (hx : s.cancels x = none) :
    (s.locked key.chatId = false → ∃ s' call o,
      RunsCancel x σ key cancelCoordinator isDuplicate (some t) s s' ∧ s'.cancels x = some call ∧
        call.pc = .ended o) ∧
    ∀ s' call o, RunsCancel x σ key cancelCoordinator isDuplicate (some t) s s' →
      s'.cancels x = some call → call.pc = .ended o →
      (s.shared.CancelsGeneration s'.shared σ key isDuplicate t o ↔
        s.shared.Guarded σ key cancelCoordinator t) := by
  refine ⟨exists_runsCancel_ended hx, fun s' call o hrun hcall hpc => ?_⟩
  rw [← s.shared.cancelsGeneration_cancelCall_iff, cancelCall_of_ended hx hrun hcall hpc]

end Runs

/-- A call for the generation of the only listener cancels it. -/
theorem cancelsGeneration_iff_registered : ∃ s s' : State memoryCoordinator Unit Unit,
    ∃ o, (listenerLts memoryCoordinator Unit Unit).Reachable s ∧
      s.shared.CancelsGeneration s'.shared () ⟨100, none, none⟩ false (0 : ℕ) o := by
  have h₀ : (listenerLts memoryCoordinator Unit Unit).Reachable (.init ..) := .init rfl
  have h₁ := h₀.run (run_listen 0 () ⟨100, none, none⟩ none .reject (fun _ _ _ _ => trivial)
    rfl rfl rfl rfl rfl)
  obtain ⟨s, h, hl, hf, hcur, hfree, hnew⟩ : ∃ s : State memoryCoordinator Unit Unit,
      (listenerLts memoryCoordinator Unit Unit).Reachable s ∧
      s.shared.listeners () ⟨100, none, none⟩ =
        some ⟨⟨100, none, none⟩, none, 0, some (0 : ℕ)⟩ ∧ s.shared.futures 0 = .pending ∧
      memoryCoordinator.current s.shared.backend ⟨100, none, none⟩ = some (0 : ℕ) ∧
      s.locked 100 = false ∧ s.cancels 0 = none :=
    ⟨_, h₁, rfl, rfl, rfl, rfl, rfl⟩
  obtain ⟨hrun, hiff⟩ := cancelsGeneration_iff s 0 () ⟨100, none, none⟩ true false (0 : ℕ) hnew
  obtain ⟨s', call, o, hrun, hcall, hpc⟩ := hrun hfree
  refine ⟨s, s', o, h, (hiff s' call o hrun hcall hpc).2 ⟨_, hl, fun _ => ⟨hf, ?_⟩⟩⟩
  exact fun _ t ht => Option.some.inj (ht.symm.trans hcur)

/-- A session without a listener under the key is asked to cancel a generation that is not
    there: it removes the registration of another session, and returns `True`. -/
theorem cancel_revokes_other_session : ∃ s s' : State (redisCoordinator Bool ℕ) Unit Unit,
    ∃ call, (listenerLts (redisCoordinator Bool ℕ) Unit Unit).Reachable s ∧
      RunsCancel 0 false ⟨100, none, none⟩ true false (some (5 : ℕ)) s s' ∧
      s'.cancels 0 = some call ∧ call.pc = .ended (.returned true) ∧
      s.shared.listeners false ⟨100, none, none⟩ = none ∧
      (redisCoordinator Bool ℕ).current s.shared.backend ⟨100, none, none⟩ = some (7 : ℕ) ∧
      (redisCoordinator Bool ℕ).current s'.shared.backend ⟨100, none, none⟩ = none := by
  have h₀ : (listenerLts (redisCoordinator Bool ℕ) Unit Unit).Reachable (.init ..) := .init rfl
  have h₁ := h₀.run (run_listen 0 true ⟨100, none, none⟩ none .reject (t := (7 : ℕ))
    (fun _ _ _ _ => trivial) rfl rfl rfl rfl ⟨Set.notMem_empty _, rfl⟩)
  obtain ⟨s, h, hl, hcur, hfree, hnew⟩ : ∃ s : State (redisCoordinator Bool ℕ) Unit Unit,
      (listenerLts (redisCoordinator Bool ℕ) Unit Unit).Reachable s ∧
      s.shared.listeners false ⟨100, none, none⟩ = none ∧
      (redisCoordinator Bool ℕ).current s.shared.backend ⟨100, none, none⟩ = some (7 : ℕ) ∧
      s.locked 100 = false ∧ s.cancels 0 = none :=
    ⟨_, h₁, rfl, rfl, rfl, rfl⟩
  obtain ⟨s', call, o, hrun, hcall, hpc⟩ : ∃ s' call o,
      RunsCancel 0 false ⟨100, none, none⟩ true false (some (5 : ℕ)) s s' ∧
        s'.cancels 0 = some call ∧ call.pc = .ended o := exists_runsCancel_ended hnew hfree
  -- The call has gone on to the coordinator.
  have hend := cancelCall_of_ended hnew hrun hcall hpc
  rw [Shared.cancelCall_of_none hl] at hend
  obtain ⟨hs', rfl⟩ := Prod.mk.inj hend
  refine ⟨s, s', call, h, hrun, hcall, hpc, hl, hcur, ?_⟩
  rw [← hs', Shared.current_cancelCoordinator, if_pos rfl, Function.update_self]

end Pyroflow
