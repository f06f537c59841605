import Pyroflow.Coordination.Settlement
import Mathlib.Data.Set.Insert

/-!
# Cancelled deliveries

The coordination, where the task of a delivery may be cancelled, once, at any
point where it is suspended (`CancelStep`). What the task awaits there may catch
the `CancelledError`, or let it through (`Delivery.Cancel`). When it awaits the early
settlement, the task of that is cancelled in turn, then or a little later
(`Delivery.CancelEarly`): a task that has not started never runs its body.

A cancellation spares the settlement (`Spares`) unless it comes to an early
settlement that is scheduled and has not started, or interrupts a `lock.release()`
that then takes no effect. As long as the cancellations do, a delivery still settles:
once its task and its early settlement are over, the lock is released, and the
update is registered if `mark_handled()` has returned `True` for it
(`settles_of_spared`). An early settlement cancelled before it starts leaves the lock
taken (`early_settlement_lost`).
-/

namespace Pyroflow

open Dispatcher

variable {Key Id : Type}

/-! ### The cancellation of a delivery -/

/-- Where `handle_update` awaits a hook, the backend or the handlers, outside of its
    settlement. -/
def DeliveryPc.InTry : DeliveryPc → Prop
  | .coordinatable | .locking | .acquiring | .uncoordinated | .identifying | .checking
  | .running => True
  | _ => False

/-- What is awaited ends with `CancelledError`. -/
inductive DeliveryEvent.Cancelled : DeliveryEvent → Prop
  | identify : Cancelled (.identify (some .cancelledError))
  | check : Cancelled (.check (some .cancelledError))
  | ran : Cancelled (.ran (.error .cancelledError))

section Cancel

variable [DecidableEq Id]

/-- What the cancellation of its task does to a delivery: whether the call it
    interrupts takes effect, whether it is passed on to the early settlement, and what
    is done to the locks, the registry and the delivery. -/
inductive Delivery.Cancel (handled : Id → Bool) (dl : Delivery Key Id) :
    Bool → Bool → Mutex.Action Key → (Id → Bool) → Delivery Key Id → Prop
  /-- What is awaited catches it. -/
  | caught (pc : dl.pc.InTry) : Cancel handled dl true false .keep handled dl
  | raised {e a handled' dl'} (cancelled : e.Cancelled)
      (step : dl.Step handled e a handled' dl') : Cancel handled dl true false a handled' dl'
  /-- No `Exception`: the update is not processed without the lock either. -/
  | unlocked (pc : dl.pc = .coordinatable ∨ dl.pc = .locking ∨ dl.pc = .acquiring) :
      Cancel handled dl true false .keep handled
        { dl with pc := .ended (.error .cancelledError) }
  /-- The settlement goes on to the release of the lock, or ends. -/
  | settling {e a handled' sp o o' dl'} (step : dl.Step handled (.settle e) a handled' dl')
      (pc : dl'.pc = .settling sp o) (ends : o' = o ∨ o' = .error .cancelledError) :
      Cancel handled dl true false a handled' { dl' with pc := .settling sp o' }
  /-- `lock.release()` is interrupted, and the lock stays. -/
  | lost {o o'} (pc : dl.pc = .settling .releasing o)
      (ends : o' = o ∨ o' = .error .cancelledError) :
      Cancel handled dl false false .keep handled { dl with pc := .settling .done o' }
  /-- The early settlement is to be cancelled; the task waits for its end, or not. -/
  | awaiting {o pc'} (pc : dl.pc = .awaiting o)
      (waits : pc' = .awaiting o ∨ pc' = .awaiting (.error .cancelledError) ∨
        pc' = .ended (.error .cancelledError)) :
      Cancel handled dl true true .keep handled { dl with pc := pc' }

/-- What the cancellation of its early settlement does to a delivery. -/
inductive Delivery.CancelEarly (handled : Id → Bool) (dl : Delivery Key Id) :
    Bool → Mutex.Action Key → (Id → Bool) → Delivery Key Id → Prop
  /-- The body of the task never runs. -/
  | unstarted {r} (rel : dl.release = some r) (early : r.early = some .scheduled) :
      CancelEarly handled dl true .keep handled
        { dl with release := some { r with early := some .done } }
  | started {e a handled' dl'} (step : dl.Step handled (.early e) a handled' dl') :
      CancelEarly handled dl true a handled' dl'
  | lost {r} (rel : dl.release = some r) (early : r.early = some .releasing) :
      CancelEarly handled dl false .keep handled
        { dl with release := some { r with early := some .done } }

end Cancel

namespace Coordination

variable (Key Id) in
/-- A state of the deliveries and of the backend, with the deliveries whose task was
    cancelled, those whose early settlement is to be cancelled, and those a call of
    `mark_handled()` has returned `True` for when their update id was known. -/
structure CancelState extends State Key Id where
  cancelled : Set ℕ
  forwarded : Set ℕ
  claimed : Set ℕ

/-- The labels of the steps; of a cancellation, whether the call it interrupts takes
    effect. -/
inductive CancelLabel (Key Id : Type)
  | step (l : Label Key Id)
  | cancel (d : ℕ) (effective : Bool)
  | cancelEarly (d : ℕ) (effective : Bool)

/-- The step claims the settlement of an update whose id is known. -/
def State.Claims (s : State Key Id) (l : Label Key Id) (d : ℕ) : Prop :=
  l = .deliver d (.markHandled true) ∧
    ∃ dl r, s.deliveries d = some dl ∧ dl.release = some r ∧ r.updateId.isSome = true

variable [DecidableEq Key] [DecidableEq Id]

/-- The steps of the deliveries, and their cancellations. -/
inductive CancelStep : CancelState Key Id → CancelLabel Key Id → CancelState Key Id → Prop
  | step {s : CancelState Key Id} {l b} (step : Step s.toState l b) :
      CancelStep s (.step l) { s with
        toState := b
        claimed := {d | d ∈ s.claimed ∨ s.Claims l d} }
  | cancel {s d dl effective forward a handled dl'} (found : s.deliveries d = some dl)
      (once : d ∉ s.cancelled) (step : dl.Cancel s.handled effective forward a handled dl')
      (enabled : a.Enabled s.locked) :
      CancelStep s (.cancel d effective) {
        deliveries := Function.update s.deliveries d (some dl')
        locked := a.apply s.locked
        handled := handled
        cancelled := insert d s.cancelled
        forwarded := if forward then insert d s.forwarded else s.forwarded
        claimed := s.claimed }
  | cancelEarly {s d dl effective a handled dl'} (found : s.deliveries d = some dl)
      (forwarded : d ∈ s.forwarded) (step : dl.CancelEarly s.handled effective a handled dl')
      (enabled : a.Enabled s.locked) :
      CancelStep s (.cancelEarly d effective) {
        deliveries := Function.update s.deliveries d (some dl')
        locked := a.apply s.locked
        handled := handled
        cancelled := s.cancelled
        forwarded := s.forwarded \ {d}
        claimed := s.claimed }

variable (Key Id) in
/-- The deliveries, as a transition system, where their tasks may be cancelled. -/
def cancelLts : Lts (CancelState Key Id) (CancelLabel Key Id) where
  init s := s = ⟨.init Key Id, ∅, ∅, ∅⟩
  step := CancelStep

/-- A cancellation spares the settlement: the call it interrupts takes effect, and it
    does not come to an early settlement that has not started. -/
def Spares (s : CancelState Key Id) : CancelLabel Key Id → Prop
  | .step _ => True
  | .cancel _ effective => effective = true
  | .cancelEarly d effective => effective = true ∧
      ∀ dl r, s.deliveries d = some dl → dl.release = some r → r.early ≠ some .scheduled

end Coordination

/-! ### The course of a delivery -/

namespace Delivery

variable {dl dl' : Delivery Key Id}

/-- The phases are not about how the delivery will end. -/
theorem Phase.ends (h : dl.Phase) {sp : SettlePc} {o : Except Raised Unit}
    (hpc : dl.pc = .settling sp o) (o' : Except Raised Unit) :
    Phase { dl with pc := .settling sp o' } := by
  obtain ⟨r, made, rel, early, released, calls, tail⟩ := h.of_settling hpc
  cases h with
  | outside _ pc => exact (hpc ▸ pc).elim
  | inside _ _ _ pc => exact (hpc ▸ pc).elim
  | claimed rel' early' =>
    obtain rfl := Option.some.inj (rel.symm.trans rel')
    exact absurd (early.symm.trans early') nofun
  | settling _ _ _ started pc =>
    rcases pc with pc | ⟨pc, _⟩
    · rw [hpc, DeliveryPc.settling.injEq] at pc
      obtain ⟨rfl, rfl⟩ := pc
      exact .settling rel early released started (.inl rfl) calls tail
    · exact absurd (hpc.symm.trans pc) nofun

theorem Phase.awaits (h : dl.Phase) {o : Except Raised Unit} (hpc : dl.pc = .awaiting o)
    (o' : Except Raised Unit) : Phase { dl with pc := .awaiting o' } := by
  cases h with
  | outside _ pc => exact (hpc ▸ pc).elim
  | inside _ _ _ pc => exact (hpc ▸ pc).elim
  | claimed rel early released _ calls tail =>
    exact .claimed rel early released (.inr (.inl ⟨_, rfl⟩)) calls tail
  | settling _ _ _ _ pc =>
    rcases pc with pc | ⟨pc, _⟩
    · exact absurd (hpc.symm.trans pc) nofun
    · exact absurd (hpc.symm.trans pc) nofun

/-- The course of a delivery that may have been cancelled: its phases, except that
    its task may have ended without waiting for the early settlement. -/
def Course (dl : Delivery Key Id) : Prop :=
  dl.Phase ∨ ∃ o o', dl.pc = .ended o ∧ Phase { dl with pc := .awaiting o' }

/-- The settlement claimed by `mark_handled()` will register the update, or has. -/
def WillMark (dl : Delivery Key Id) : Prop :=
  ∃ r sp, dl.release = some r ∧ r.early = some sp ∧ r.updateId.isSome = true ∧
    (sp = .scheduled ∨ sp = .marking ∨ Call.mark ∈ dl.calls)

/-- Where `mark_handled()` has claimed the settlement, whatever the task does. -/
theorem Course.of_claimed (h : dl.Course) {r : Release Id} (hr : dl.release = some r)
    {sp : SettlePc} (he : r.early = some sp) : ∃ made, (r.released = false ↔ sp = .scheduled) ∧
      dl.calls = .acquire :: .claim :: made ∧ sp.Made made := by
  obtain hp | ⟨_, _, _, hp⟩ := h
  · obtain ⟨made, released, _, calls, tail⟩ := hp.of_claimed hr he
    exact ⟨made, released, calls, tail⟩
  · obtain ⟨made, released, _, calls, tail⟩ := hp.of_claimed hr he
    exact ⟨made, released, calls, tail⟩

variable [DecidableEq Id] {handled handled' : Id → Bool} {e : DeliveryEvent}
  {a : Mutex.Action Key}

/-- Once its task has ended, what becomes of a delivery is up to the early settlement,
    which does not look at the task. -/
theorem Step.of_ended {o : Except Raised Unit} (h : dl.Step handled e a handled' dl')
    (hpc : dl.pc = .ended o) (pc : DeliveryPc) :
    dl'.pc = .ended o ∧
      Step handled { dl with pc := pc } e a handled' { dl' with pc := pc } := by
  cases h with
  | markHandled rel claimed => exact ⟨hpc, .markHandled rel claimed⟩
  | markHandledLate rel late => exact ⟨hpc, .markHandledLate rel late⟩
  | earlyStart rel early => exact ⟨hpc, .earlyStart rel early⟩
  | early rel early step => exact ⟨hpc, .early rel early step⟩
  | coordinatable pc | notCoordinatable pc | coordinatableRaises pc | lock pc | lockRaises pc
  | acquire pc | timeout pc | acquireRaises pc | uncoordinated pc | identify pc | identifyRaises pc
  | check pc | checkRaises pc | drop pc | process pc | ran pc | settle pc | settled pc
  | awaited pc => exact absurd (hpc.symm.trans pc) nofun

theorem Step.course (h : dl.Step handled e a handled' dl') (hc : dl.Course) : dl'.Course := by
  rcases hc with hp | ⟨o, o', hpc, hp⟩
  · exact .inl (h.phase hp)
  · obtain ⟨hpc', h'⟩ := h.of_ended hpc (.awaiting o')
    exact .inr ⟨o, o', hpc', h'.phase hp⟩

omit [DecidableEq Id] in
theorem WillMark.finish (h : dl.WillMark) {r : Release Id} (hr : dl.release = some r)
    (result : Except Raised (ℕ × ℕ)) : (dl.finish r result).WillMark := by
  obtain ⟨r', sp, rel, early, known, hs⟩ := h
  obtain rfl := Option.some.inj (rel.symm.trans hr)
  rw [Delivery.finish, if_pos (by simp [early])]
  exact ⟨r', sp, rel, early, known, hs⟩

/-- A settlement that is to register the update does. -/
theorem Step.willMark (h : dl.Step handled e a handled' dl') (hc : dl.Course) (hm : dl.WillMark) :
    dl'.WillMark := by
  obtain ⟨r, sp, rel, early, known, hs⟩ := hm
  cases h with
  | acquire pc =>
    -- Nothing is claimed before the lock is acquired.
    obtain hp | ⟨_, _, hpc, _⟩ := hc
    · have hnone := (hp.of_outside (by rw [pc]; trivial) (by rw [pc]; exact nofun)).1
      exact absurd (hnone.symm.trans rel) nofun
    · exact absurd (hpc.symm.trans pc) nofun
  | identify _ rel' =>
    obtain rfl := Option.some.inj (rel.symm.trans rel')
    exact ⟨_, sp, rfl, early, rfl, hs⟩
  | identifyRaises _ rel' | checkRaises _ rel' | drop _ rel' | ran _ rel' =>
    exact WillMark.finish ⟨r, sp, rel, early, known, hs⟩ rel' _
  | markHandled rel' claimed =>
    obtain rfl := Option.some.inj (rel.symm.trans rel')
    exact absurd ((claimEarly_eq_some claimed).1.symm.trans early) nofun
  | earlyStart rel' early' =>
    obtain rfl := Option.some.inj (rel.symm.trans rel')
    obtain ⟨_, released, _⟩ := hc.of_claimed rel early'
    rw [settle_eq (released.2 rfl)]
    exact ⟨_, _, rfl, rfl, known, .inr (.inl (if_pos (by simpa using known)))⟩
  | early rel' early' step =>
    obtain rfl := Option.some.inj (rel.symm.trans rel')
    obtain rfl := Option.some.inj (early.symm.trans early')
    refine ⟨_, _, rfl, rfl, known, .inr (.inr (List.mem_append.2 ?_))⟩
    cases step with
    | mark | markFails => exact .inr (List.mem_singleton_self _)
    | release => exact .inl ((hs.resolve_left nofun).resolve_left nofun)
  | settle => exact ⟨r, sp, rel, early, known, hs.imp_right (.imp_right (List.mem_append_left _))⟩
  | _ => exact ⟨r, sp, rel, early, known, hs⟩

/-- What `mark_handled()` claims when the update id is known is to be registered. -/
theorem Step.willMark_of_claim (h : dl.Step handled (.markHandled true) a handled' dl')
    {r : Release Id} (hr : dl.release = some r) (hi : r.updateId.isSome = true) : dl'.WillMark := by
  cases h with
  | markHandled rel claimed =>
    obtain rfl := Option.some.inj (rel.symm.trans hr)
    obtain ⟨_, _, rfl⟩ := claimEarly_eq_some claimed
    exact ⟨_, _, rfl, rfl, hi, .inl rfl⟩

omit [DecidableEq Id] in
/-- A settlement that is over has released the lock. -/
theorem Course.over (h : dl.Course) {o : Except Raised Unit} (hpc : dl.pc = .ended o)
    (hacq : Call.acquire ∈ dl.calls)
    (he : ∀ r sp, dl.release = some r → r.early = some sp → sp = .done) :
    Call.release ∈ dl.calls := by
  obtain hp | ⟨_, _, _, hp⟩ := h
  · exact hp.calls.2.2 o hpc hacq
  · -- The early settlement of a task that has not waited for it.
    cases hp with
    | outside _ pc => exact pc.elim
    | inside _ _ _ pc => exact pc.elim
    | claimed rel early released pc calls tail =>
      obtain rfl := he _ _ rel early
      change dl.calls = _ at calls
      rcases tail with rfl | rfl <;> simp [calls]
    | settling _ _ _ _ pc => rcases pc with pc | ⟨pc, _⟩ <;> exact absurd pc nofun

omit [DecidableEq Id] in
/-- So it has registered the update, if it was to. -/
theorem WillMark.over (h : dl.WillMark)
    (he : ∀ r sp, dl.release = some r → r.early = some sp → sp = .done) :
    Call.mark ∈ dl.calls := by
  obtain ⟨r, sp, rel, early, _, hs⟩ := h
  obtain rfl := he r sp rel early
  exact (hs.resolve_left nofun).resolve_left nofun

/-- A cancellation that spares the settlement keeps to the course of the delivery. -/
theorem Cancel.course {forward : Bool} (h : dl.Cancel handled true forward a handled' dl')
    (hc : dl.Course) : dl'.Course ∧ (dl.WillMark → dl'.WillMark) := by
  cases h with
  | caught => exact ⟨hc, fun hm => hm⟩
  | raised _ step => exact ⟨step.course hc, step.willMark hc⟩
  | unlocked pc =>
    obtain hp | ⟨_, _, hpc, _⟩ := hc
    · have hnone := hp.of_outside (by rcases pc with pc | pc | pc <;> rw [pc] <;> trivial)
        (by rcases pc with pc | pc | pc <;> rw [pc] <;> exact nofun)
      exact ⟨.inl (.outside hnone.1 trivial hnone.2), fun hm => hm⟩
    · rcases pc with pc | pc | pc <;> exact absurd (hpc.symm.trans pc) nofun
  | settling step pc =>
    refine ⟨?_, step.willMark hc⟩
    obtain hp | ⟨_, _, hpc, _⟩ := step.course hc
    · exact .inl (hp.ends pc _)
    · exact absurd (hpc.symm.trans pc) nofun
  | @awaiting o pc' pc waits =>
    refine ⟨?_, fun hm => hm⟩
    obtain hp | ⟨_, _, hpc, _⟩ := hc
    · rcases waits with rfl | rfl | rfl
      · exact .inl (hp.awaits pc _)
      · exact .inl (hp.awaits pc _)
      · exact .inr ⟨_, o, rfl, hp.awaits pc _⟩
    · exact absurd (hpc.symm.trans pc) nofun

theorem CancelEarly.course (h : dl.CancelEarly handled true a handled' dl')
    (hs : ∀ r, dl.release = some r → r.early ≠ some .scheduled) (hc : dl.Course) :
    dl'.Course ∧ (dl.WillMark → dl'.WillMark) := by
  cases h with
  | unstarted rel early => exact absurd early (hs _ rel)
  | started step => exact ⟨step.course hc, step.willMark hc⟩

end Delivery

/-! ### All deliveries -/

namespace Coordination

variable [DecidableEq Key] [DecidableEq Id] {s s' : CancelState Key Id} {d : ℕ}
  {dl dl' : Delivery Key Id}

/-- Every delivery keeps to its course, and is to register its update if that is
    claimed. -/
structure Kept (s : CancelState Key Id) : Prop where
  course : ∀ {d dl}, s.deliveries d = some dl → dl.Course
  willMark : ∀ {d}, d ∈ s.claimed → ∃ dl, s.deliveries d = some dl ∧ dl.WillMark

omit [DecidableEq Key] [DecidableEq Id] in
/-- A step of one delivery leaves the others alone. -/
theorem Kept.update (h : Kept s)
    (hd : s'.deliveries = Function.update s.deliveries d (some dl')) (hc : dl'.Course)
    (hm : d ∈ s'.claimed → dl'.WillMark)
    (hclaimed : ∀ d', d' ≠ d → d' ∈ s'.claimed → d' ∈ s.claimed) : Kept s' where
  course {d' dl''} hd' := by
    rw [hd] at hd'
    by_cases hdd : d' = d
    · subst hdd
      rw [Function.update_self, Option.some_inj] at hd'
      exact hd' ▸ hc
    · rw [Function.update_of_ne hdd] at hd'
      exact h.course hd'
  willMark {d'} hd' := by
    rw [hd]
    by_cases hdd : d' = d
    · subst hdd
      exact ⟨dl', Function.update_self .., hm hd'⟩
    · rw [Function.update_of_ne hdd]
      exact h.willMark (hclaimed d' hdd hd')

omit [DecidableEq Key] [DecidableEq Id] in
theorem Kept.willMark_of_found (h : Kept s) (hd : s.deliveries d = some dl) (hc : d ∈ s.claimed) :
    dl.WillMark := by
  obtain ⟨dl', hd', hm⟩ := h.willMark hc
  exact Option.some.inj (hd'.symm.trans hd) ▸ hm

theorem CancelStep.kept {l : CancelLabel Key Id} (h : CancelStep s l s') (hp : Spares s l)
    (hk : Kept s) : Kept s' := by
  cases h with
  | @step l b step =>
    cases step with
    | start new =>
      refine hk.update rfl (.inl (.outside rfl trivial rfl)) ?_ ?_
      · -- Nothing is claimed of a delivery that starts.
        rintro (hc | ⟨hl, _⟩)
        · obtain ⟨_, hd, _⟩ := hk.willMark hc
          exact absurd (new.symm.trans hd) nofun
        · exact absurd hl nofun
      · exact fun _ _ hc => hc.resolve_right fun ⟨hl, _⟩ => absurd hl nofun
    | deliver found step enabled =>
      refine hk.update rfl (step.course (hk.course found)) ?_ ?_
      · rintro (hc | ⟨hl, dl, r, hd, hr, hi⟩)
        · exact step.willMark (hk.course found) (hk.willMark_of_found found hc)
        · cases hl
          obtain rfl := Option.some.inj (found.symm.trans hd)
          exact step.willMark_of_claim hr hi
      · intro d' hdd hc
        refine hc.resolve_right fun ⟨hl, _⟩ => hdd ?_
        cases hl
        rfl
    | expire =>
      exact ⟨hk.course, fun hc => hk.willMark (hc.resolve_right fun ⟨hl, _⟩ => nomatch hl)⟩
  | cancel found once step =>
    obtain rfl : _ = true := hp
    obtain ⟨hc, hm⟩ := step.course (hk.course found)
    exact hk.update rfl hc (fun h => hm (hk.willMark_of_found found h)) fun _ _ h => h
  | cancelEarly found forwarded step =>
    obtain ⟨rfl, hs⟩ := hp
    obtain ⟨hc, hm⟩ := step.course (fun r hr => hs _ r found hr) (hk.course found)
    exact hk.update rfl hc (fun h => hm (hk.willMark_of_found found h)) fun _ _ h => h

theorem kept_of_spared (h : (cancelLts Key Id).ReachableUnder Spares s) : Kept s := by
  refine h.invariant ?_ fun _ _ _ hk hp hst => hst.kept hp hk
  rintro _ rfl
  exact ⟨nofun, nofun⟩

/-- Where the cancellations spare the settlement, it survives them: once the task of a
    delivery that has acquired its lock and the early settlement it has scheduled, if any,
    are over, the lock is released, and if a call of `mark_handled()` has returned `True`
    when the update id was known, the id was passed to the registry. -/
theorem settles_of_spared (h : (cancelLts Key Id).ReachableUnder Spares s)
    (hd : s.deliveries d = some dl) (hacq : Call.acquire ∈ dl.calls) {o : Except Raised Unit}
    (hpc : dl.pc = .ended o)
    (he : ∀ r sp, dl.release = some r → r.early = some sp → sp = .done) :
    Call.release ∈ dl.calls ∧ (d ∈ s.claimed → Call.mark ∈ dl.calls) := by
  have hk := kept_of_spared h
  exact ⟨(hk.course hd).over hpc hacq he, fun hc => (hk.willMark_of_found hd hc).over he⟩

/-- A handler calls `mark_handled()` and returns before the settlement starts. -/
theorem reachable_scheduled : ∃ s : CancelState ℕ ℕ, (cancelLts ℕ ℕ).ReachableUnder Spares s ∧
    s.deliveries 0 = some ⟨true, 100, 5, .awaiting (.ok ()), some ⟨some .scheduled, false, some 5⟩,
      some (.ok (1, 0)), [.acquire, .claim]⟩ ∧ 0 ∈ s.claimed ∧ 0 ∉ s.cancelled := by
  have h₀ : (cancelLts ℕ ℕ).ReachableUnder Spares ⟨.init .., ∅, ∅, ∅⟩ := .init rfl
  have h₁ := h₀.tail (l := CancelLabel.step (.start 0 true 100 5)) trivial (.step (.start rfl))
  have h₂ := h₁.tail (l := CancelLabel.step (.deliver 0 (.coordinatable true))) trivial
    (.step (.deliver rfl (.coordinatable rfl rfl) trivial))
  have h₃ := h₂.tail (l := CancelLabel.step (.deliver 0 (.lock true))) trivial
    (.step (.deliver rfl (.lock rfl) trivial))
  have h₄ := h₃.tail (l := CancelLabel.step (.deliver 0 (.acquire (some true)))) trivial
    (.step (.deliver rfl (.acquire rfl) rfl))
  have h₅ := h₄.tail (l := CancelLabel.step (.deliver 0 (.identify none))) trivial
    (.step (.deliver rfl (.identify rfl rfl) trivial))
  have h₆ := h₅.tail (l := CancelLabel.step (.deliver 0 (.check none))) trivial
    (.step (.deliver rfl (.check rfl) trivial))
  have h₇ := h₆.tail (l := CancelLabel.step (.deliver 0 .checked)) trivial
    (.step (.deliver rfl (.process rfl) trivial))
  have h₈ := h₇.tail (l := CancelLabel.step (.deliver 0 (.markHandled true))) trivial
    (.step (.deliver rfl (.markHandled rfl rfl) trivial))
  have h₉ := h₈.tail (l := CancelLabel.step (.deliver 0 (.ran (.ok (1, 0))))) trivial
    (.step (.deliver rfl (.ran rfl rfl) trivial))
  exact ⟨_, h₉, rfl, .inl (.inr ⟨rfl, _, _, rfl, rfl, rfl⟩), id⟩

/-- The task is cancelled when the early settlement writes to the registry. -/
theorem settles_of_spared_marking : ∃ (s : CancelState ℕ ℕ) (dl : Delivery ℕ ℕ),
    0 ∈ s.cancelled ∧ s.deliveries 0 = some dl ∧ dl.pc = .ended (.error .cancelledError) ∧
      Call.release ∈ dl.calls ∧ Call.mark ∈ dl.calls := by
  obtain ⟨s, h, hd, hclaimed, hnew⟩ := reachable_scheduled
  have h₁ := h.tail (l := CancelLabel.step (.deliver 0 .earlyStart)) trivial
    (.step (.deliver hd (.earlyStart rfl rfl) trivial))
  have h₂ := h₁.tail (l := CancelLabel.cancel 0 true) rfl
    (.cancel rfl hnew (.awaiting rfl (.inr (.inl rfl))) trivial)
  have h₃ := h₂.tail (l := CancelLabel.cancelEarly 0 true)
    ⟨rfl, fun dl r hd hr he => by simp at hd; subst hd; simp at hr; subst hr; cases he⟩
    (.cancelEarly rfl (.inl rfl) (.started (.early rfl rfl (.mark rfl))) trivial)
  have h₄ := h₃.tail (l := CancelLabel.step (.deliver 0 (.early .release))) trivial
    (.step (.deliver rfl (.early rfl rfl .release) trivial))
  have h₅ := h₄.tail (l := CancelLabel.step (.deliver 0 .settled)) trivial
    (.step (.deliver rfl (.awaited rfl rfl rfl) trivial))
  obtain ⟨s', h', dl, hcancelled, hd', hpc, hacq, he, hc⟩ : ∃ s' : CancelState ℕ ℕ,
      (cancelLts ℕ ℕ).ReachableUnder Spares s' ∧ ∃ dl, 0 ∈ s'.cancelled ∧
        s'.deliveries 0 = some dl ∧ dl.pc = .ended (.error .cancelledError) ∧
        Call.acquire ∈ dl.calls ∧ dl.release = some ⟨some .done, true, some 5⟩ ∧ 0 ∈ s'.claimed :=
    ⟨_, h₅, _, .inl rfl, rfl, rfl, by decide, rfl, .inl (.inl (.inl hclaimed))⟩
  obtain ⟨hrel, hmark⟩ := settles_of_spared h' hd' hacq hpc fun r sp hr hsp => by
    obtain rfl := Option.some.inj (he.symm.trans hr)
    exact (Option.some.inj hsp).symm
  exact ⟨s', dl, hcancelled, hd', hpc, hrel, hmark hc⟩

/-- The task is cancelled while it waits for an early settlement that has not started:
    both end, the lock stays taken, and the update is not registered. -/
theorem early_settlement_lost : ∃ (s : CancelState ℕ ℕ) (dl : Delivery ℕ ℕ),
    (cancelLts ℕ ℕ).Reachable s ∧ s.deliveries 0 = some dl ∧ Call.acquire ∈ dl.calls ∧
      dl.pc = .ended (.error .cancelledError) ∧
      (∀ r sp, dl.release = some r → r.early = some sp → sp = .done) ∧ 0 ∈ s.claimed ∧
      Call.release ∉ dl.calls ∧ Call.mark ∉ dl.calls := by
  obtain ⟨s, h, hd, hclaimed, hnew⟩ := reachable_scheduled
  have h₁ := h.reachable.tail (l := CancelLabel.cancel 0 true) trivial
    (.cancel hd hnew (.awaiting rfl (.inr (.inl rfl))) trivial)
  have h₂ := h₁.tail (l := CancelLabel.cancelEarly 0 true) trivial
    (.cancelEarly rfl (.inl rfl) (.unstarted rfl rfl) trivial)
  have h₃ := h₂.tail (l := CancelLabel.step (.deliver 0 .settled)) trivial
    (.step (.deliver rfl (.awaited rfl rfl rfl) trivial))
  refine ⟨_, _, h₃, rfl, by decide, rfl, ?_, .inl hclaimed, by decide,
    by decide⟩
  intro r sp hr hsp
  cases hr
  exact (Option.some.inj hsp).symm

end Coordination

end Pyroflow
