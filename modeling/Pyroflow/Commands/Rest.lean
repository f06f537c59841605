import Mathlib.Algebra.BigOperators.Group.Finset.Basic
import Mathlib.Algebra.Order.BigOperators.Group.Finset
import Pyroflow.Commands.Locks
import Pyroflow.Lib.Rest

/-!
# The tasks of a client finish

Pyrogram's tasks and the bookkeeping wait for the workers, for each other, and for the calls to
Telegram. They all take their locks in one order, so they do not block each other: of the tasks
that wait, one that waits for the last lock in the order waits for a worker, or for an answer of
Telegram. As no more calls come in, and the workers end the updates they are at, all tasks
finish (`client_comes_to_rest`).
-/

namespace Pyroflow

variable {Scope BotCommand Handler : Type}

/-! ### What is left to do -/

/-- How many locks Pyrogram's task has yet to take, and whether it has to start. -/
def PyroTask.left (workers : ℕ) : PyroTask → ℕ
  | .created => workers + 2
  | .waiting lock => workers + 1 - lock
  | .done | .rejected => 0

/-- How many locks the bookkeeping has yet to take, and whether it has to start. -/
def TrackTask.left (workers : ℕ) : TrackTask → ℕ
  | .created => workers + 2
  | .waiting lock => workers + 1 - lock
  | .done => 0

/-- What the tasks of a call have left to do. -/
def TrackedCall.left (workers : ℕ) (c : TrackedCall Handler) : ℕ :=
  c.pyro.left workers + c.track.left workers

/-- What the tasks have left to do, and who is to release a lock. -/
def PublishingState.left (workers : ℕ) (s : PublishingState Scope BotCommand Handler) : ℕ :=
  (s.calls.map (TrackedCall.left workers)).sum + ∑ w ∈ Finset.range workers, (s.busy w).toNat +
    s.pushing.toNat + s.stopping.toNat

/-- A step of the tasks, the end of an update, or an answer of Telegram. -/
def PublishingLabel.GoesOn : PublishingLabel Handler → Prop
  | .tracking (.call ..) | .tracking (.work _) | .push | .stop => False
  | _ => True

/-- All tasks have finished, and no lock is taken. -/
structure PublishingState.AtRest (s : PublishingState Scope BotCommand Handler) : Prop where
  finished : s.Finished
  unlocked : ∀ lock, s.locked lock = false
  stopped : s.stopping = false

namespace TrackingState

variable {s : TrackingState Scope BotCommand Handler} {c c' : TrackedCall Handler}
  {i k lock workers : ℕ}

/-- One of the calls has less left to do. -/
theorem sum_left_setCall (hc : s.calls[i]? = some c) (h : c'.left workers < c.left workers) :
    ((s.setCall i c').calls.map (TrackedCall.left workers)).sum <
      (s.calls.map (TrackedCall.left workers)).sum := by
  rw [setCall]
  generalize s.calls = calls at hc
  -- By induction on the calls up to the one.
  induction calls generalizing i with
  | nil => cases hc
  | cons d calls ih =>
    cases i with
    | zero =>
      obtain rfl : d = c := Option.some.inj hc
      exact Nat.add_lt_add_right h _
    | succ i => exact Nat.add_lt_add_left (ih hc) _

/-! ### No task is blocked for good -/

/-- Every lock that is taken is released by the end of an update, or by a task that goes on: no
    task waits, when the workers are at rest and no task can go on. -/
theorem Orderly.not_waiting (h : s.Orderly workers) (hbusy : ∀ w, s.busy w = false)
    (hpushing : s.pushing = false)
    (hstuck : ∀ c ∈ s.calls, ∀ k, c.pyro = .waiting k ∨ c.track = .waiting k →
      s.locked k = true) : ∀ c ∈ s.calls, ∀ k, ¬(c.pyro = .waiting k ∨ c.track = .waiting k) := by
  -- From the last lock down: whoever waits for a lock waits for one who waits for a later one.
  have hfrom : ∀ n k, workers < k + n → ∀ c ∈ s.calls,
      ¬(c.pyro = .waiting k ∨ c.track = .waiting k) := by
    intro n
    induction n with
    | zero => exact fun k hk c hc hw => absurd (h.waits_le c hc k hw) (by omega)
    | succ n ih =>
      intro k hk c hc hw
      obtain ⟨o, ho⟩ := locked_iff.1 (hstuck c hc k hw)
      rcases o with _ | i | i
      · cases k with
        | zero => exact absurd (hpushing.symm.trans ho) Bool.false_ne_true
        | succ w => exact absurd ((hbusy w).symm.trans ho) Bool.false_ne_true
      · obtain ⟨d, k', hd, hp, -, hlt⟩ := ho
        exact ih k' (by omega) d (List.mem_of_getElem? hd) (.inl hp)
      · obtain ⟨d, k', hd, ht, hlt⟩ := ho
        exact ih k' (by omega) d (List.mem_of_getElem? hd) (.inr ht)
  exact fun c hc k => hfrom (workers + 1) k (by omega) c hc

/-- Every task has started, when the first that has not cannot start. -/
theorem started_of_stuck
    (hstuck : ∀ (i : ℕ) (c), s.calls[i]? = some c → s.StartedBefore i →
      c.pyro ≠ .created ∧ c.track ≠ .created) :
    ∀ c ∈ s.calls, c.pyro ≠ .created ∧ c.track ≠ .created := by
  have hall : ∀ (i : ℕ) (c), s.calls[i]? = some c → c.pyro ≠ .created ∧ c.track ≠ .created := by
    intro i
    induction i using Nat.strongRecOn with
    | ind i ih =>
      refine fun c hc => hstuck i c hc fun d hd => ?_
      obtain ⟨j, hj⟩ := List.mem_iff_getElem?.1 hd
      rw [List.getElem?_take] at hj
      split at hj
      · exact ih j ‹j < i› d hj
      · cases hj
  intro c hc
  obtain ⟨i, hi⟩ := List.mem_iff_getElem?.1 hc
  exact hall i c hi

variable [DecidableEq Scope] [DecidableEq BotCommand] [DecidableEq Handler]
  {marks : Handler → List (BotCommandEntry Scope BotCommand)}

/-! ### Each step leaves less to do -/

variable {s' : TrackingState Scope BotCommand Handler} {l : TrackingLabel Handler}

omit [DecidableEq Scope] [DecidableEq BotCommand] in
/-- Pyrogram's task runs: it has less left to do than when it had this lock to take. -/
theorem left_runPyro (hleft : workers + 1 - lock < c.pyro.left workers) :
    ∃ c', SameLocks (s.setCall i c') (s.runPyro workers i c lock) ∧
      c'.left workers < c.left workers := by
  obtain ⟨p, hs, hp⟩ := runPyro_cases s c i lock workers
  refine ⟨_, hs, Nat.add_lt_add_right ?_ _⟩
  rcases hp with rfl | rfl | ⟨k, rfl, hk⟩
  · exact Nat.zero_lt_of_lt hleft
  · exact Nat.zero_lt_of_lt hleft
  · have hle := (of_blockedFrom hk).1
    exact Nat.lt_of_le_of_lt (Nat.sub_le_sub_left hle _) hleft

omit [DecidableEq Handler] in
theorem left_runTrack (hleft : workers + 1 - lock < c.track.left workers) :
    ∃ c', SameLocks (s.setCall i c') (s.runTrack workers i c lock marks) ∧
      c'.left workers < c.left workers := by
  obtain ⟨t, hs, ht⟩ := runTrack_cases s c i lock workers marks
  refine ⟨_, hs, Nat.add_lt_add_left ?_ _⟩
  rcases ht with rfl | ⟨k, rfl, hk⟩
  · exact Nat.zero_lt_of_lt hleft
  · have hle := (of_blockedFrom hk).1
    exact Nat.lt_of_le_of_lt (Nat.sub_le_sub_left hle _) hleft

/-- A task gets on, and has less left to do; or a worker ends its update. -/
theorem Step.goesOn_cases (hst : Step marks workers s l s') (h : s.Orderly workers)
    (hgoes : PublishingLabel.GoesOn (.tracking l)) :
    (∃ i c c', s.calls[i]? = some c ∧ SameLocks (s.setCall i c') s' ∧
      c'.left workers < c.left workers) ∨
    ∃ w, s.busy w = true ∧ s' = { s with busy := Function.update s.busy w false } := by
  cases hst with
  | call | work => exact hgoes.elim
  | rest hbusy => exact .inr ⟨_, hbusy, rfl⟩
  | @startPyro i c hc _ hp =>
    exact .inl ⟨i, c, (left_runPyro (by rw [hp, PyroTask.left]; omega)).imp fun _ => .intro hc⟩
  | @wakePyro i c lock hc hp =>
    have hle : lock ≤ workers := h.waits_le c (List.mem_of_getElem? hc) lock (.inl hp)
    exact .inl ⟨i, c, (left_runPyro (by rw [hp, PyroTask.left]; omega)).imp fun _ => .intro hc⟩
  | @wakeTrack i c lock hc ht =>
    have hle : lock ≤ workers := h.waits_le c (List.mem_of_getElem? hc) lock (.inr ht)
    exact .inl ⟨i, c, (left_runTrack (by rw [ht, TrackTask.left]; omega)).imp fun _ => .intro hc⟩
  | @startTrack i c hc _ _ ht =>
    refine .inl ⟨i, c, ?_⟩
    rcases startTrack_cases s c i workers marks with ⟨heq, -⟩ | heq
    · rw [heq]
      exact (left_runTrack (by rw [ht, TrackTask.left]; omega)).imp fun _ => .intro hc
    · rw [heq]
      refine ⟨{ c with track := .done }, hc, ⟨rfl, rfl, rfl⟩, Nat.add_lt_add_left ?_ _⟩
      rw [ht]
      exact Nat.succ_pos _

end TrackingState

namespace PublishingState

open TrackingState

variable [DecidableEq Scope] [DecidableEq BotCommand] [DecidableEq Handler]
  {marks : Handler → List (BotCommandEntry Scope BotCommand)} {workers : ℕ}
  {s s' : PublishingState Scope BotCommand Handler} {l : PublishingLabel Handler}

theorem Step.left_lt (hst : Step marks workers s l s') (h : s.toTrackingState.Orderly workers)
    (hgoes : l.GoesOn) : s'.left workers < s.left workers := by
  cases hst with
  | push | stop => exact hgoes.elim
  | answered hpushing =>
    simp only [left, hpushing, Bool.toNat_true, Bool.toNat_false]
    omega
  | stopped hstopping =>
    simp only [left, hstopping, Bool.toNat_true, Bool.toNat_false]
    omega
  | tracking hst =>
    rcases hst.goesOn_cases h hgoes with ⟨i, c, c', hc, hs, hlt⟩ | ⟨w, hbusy, rfl⟩
    · have hsum := sum_left_setCall hc hlt
      simp only [left, hs.calls, hs.busy, hs.pushing]
      exact Nat.add_lt_add_right (Nat.add_lt_add_right (Nat.add_lt_add_right hsum _) _) _
    · -- One worker less is at work.
      have hsum : ∑ j ∈ Finset.range workers, (Function.update s.busy w false j).toNat <
          ∑ j ∈ Finset.range workers, (s.busy j).toNat := by
        refine Finset.sum_lt_sum (fun j _ => ?_) ⟨w, Finset.mem_range.2 (h.busy_lt w hbusy), ?_⟩
        · by_cases hj : j = w
          · rw [hj, Function.update_self]
            exact Nat.zero_le _
          · rw [Function.update_of_ne hj]
        · rw [Function.update_self, hbusy]
          exact Nat.one_pos
      exact Nat.add_lt_add_right (Nat.add_lt_add_right (Nat.add_lt_add_left hsum _) _) _

/-- When no step goes on, all tasks have finished. -/
theorem atRest_of_stuck (h : s.toTrackingState.Orderly workers)
    (hstuck : ∀ s', ¬(publishingLts marks workers).StepUnder (fun _ l => l.GoesOn) s s') :
    s.AtRest := by
  have hstuck {l s'} (hgoes : l.GoesOn) (hst : Step marks workers s l s') : False :=
    hstuck s' ⟨l, hgoes, hst⟩
  have hbusy w : s.busy w = false := eq_false_of_ne_true fun hw =>
    hstuck (l := PublishingLabel.tracking (.rest w)) trivial (.tracking (.rest hw))
  have hpushing : s.pushing = false := eq_false_of_ne_true fun hp =>
    hstuck (l := PublishingLabel.answered) trivial (.answered hp)
  -- Whoever waits waits for a lock that is taken; and nobody does.
  have hwait := h.not_waiting hbusy hpushing fun c hc k hw => by
    by_contra hfree
    obtain ⟨i, hi⟩ := List.mem_iff_getElem?.1 hc
    have hfree := eq_false_of_ne_true hfree
    rcases hw with hp | ht
    · exact hstuck (l := PublishingLabel.tracking (.wakePyro i)) trivial
        (.tracking (.wakePyro hi hp hfree))
    · exact hstuck (l := PublishingLabel.tracking (.wakeTrack i)) trivial
        (.tracking (.wakeTrack hi ht hfree))
  have hstarted := started_of_stuck fun i c hc hbefore => by
    have hp : c.pyro ≠ .created := fun hp =>
      hstuck (l := PublishingLabel.tracking (.startPyro i)) trivial
        (.tracking (.startPyro hc hbefore hp))
    exact ⟨hp, fun ht => hstuck (l := PublishingLabel.tracking (.startTrack i)) trivial
      (.tracking (.startTrack hc hbefore hp ht))⟩
  refine ⟨fun c hc => ⟨?_, ?_⟩, fun lock => eq_false_of_ne_true fun hl => ?_, ?_⟩
  · cases hp : c.pyro with
    | created => exact absurd hp (hstarted c hc).1
    | waiting k => exact absurd (.inl hp) (hwait c hc k)
    | done => exact .inl rfl
    | rejected => exact .inr rfl
  · cases ht : c.track with
    | created => exact absurd ht (hstarted c hc).2
    | waiting k => exact absurd (.inr ht) (hwait c hc k)
    | done => rfl
  · obtain ⟨_ | i | i, ho⟩ := locked_iff.1 hl
    · cases lock with
      | zero => exact absurd (hpushing.symm.trans ho) Bool.false_ne_true
      | succ w => exact absurd ((hbusy w).symm.trans ho) Bool.false_ne_true
    · obtain ⟨c, k, hc, hp, -⟩ := ho
      exact hwait c (List.mem_of_getElem? hc) k (.inl hp)
    · obtain ⟨c, k, hc, ht, -⟩ := ho
      exact hwait c (List.mem_of_getElem? hc) k (.inr ht)
  · exact eq_false_of_ne_true fun hs => hstuck (l := PublishingLabel.stopped) trivial (.stopped hs)

/-- The tasks do not block each other, and do not wait forever. From every reachable state, when
    no handlers are added or removed any more and no worker takes its lock, the steps come to an
    end, in whatever order the tasks get on: and they end with all tasks finished, and all locks
    free. -/
theorem client_comes_to_rest (h : (publishingLts marks workers).Reachable s) :
    (publishingLts marks workers).ComesToRest (fun _ l => l.GoesOn) AtRest s :=
  .of_measure (left workers) (orderly_of_reachable h)
    (fun _ _ hi ⟨_, _, hst⟩ => Step.orderly hst hi)
    (fun _ _ hi ⟨_, hgoes, hst⟩ => Step.left_lt hst hi hgoes)
    fun _ hi hstuck => atRest_of_stuck hi hstuck

end PublishingState

/-- The handler is removed while a worker is at work: the client can go on until all is done. -/
theorem client_comes_to_rest_start : ∃ s s' : PublishingState Unit String Unit,
    s.busy 0 = true ∧ s.calls.map TrackedCall.pyro = [.done, .created] ∧
      (publishingLts startMarks 1).RunUnder (fun _ l => l.GoesOn) s s' ∧ s'.AtRest := by
  have h := reachable_startState.reachable.tail (l := PublishingLabel.tracking (.work 0)) trivial
    (.tracking (.work Nat.one_pos rfl))
  have h' := h.tail (l := PublishingLabel.tracking (.call false () 0)) trivial
    (.tracking (.call false () 0))
  obtain ⟨s', hr, hs'⟩ := (PublishingState.client_comes_to_rest h').exists_run
  exact ⟨_, s', rfl, rfl, hr, hs'⟩

end Pyroflow
