import Mathlib.Algebra.BigOperators.Group.List.Lemmas
import Mathlib.Algebra.Order.Ring.Int
import Mathlib.Logic.Function.Basic
import Pyroflow.Commands
import Pyroflow.Lib.Lts

/-!
# Collecting bot commands

The runs of `add_handler` and `remove_handler` of `BotCommandsMixin`. A call creates two
tasks: Pyrogram's own, which takes all the locks of the dispatcher and then adds or
removes the handler, and right after it one for the bookkeeping (`_track_bot_commands`), which
looks whether the handler is registered, takes the same locks after one of its own, and then
collects or discards the commands the handler is marked with. The loop starts the tasks in
the order they were created. A task runs until it meets a lock that is taken; the workers
of the dispatcher each hold their lock while they are at work.

So the bookkeeping starts as soon as Pyrogram's task waits, and looks for a handler that is
not registered yet. In the runs where it always sees what it looks for (`Sees`), the
commands collected and those still to be collected cover what the registered handlers
declare (`Covered`), and in the end no command is missing (`collected_of_sees`).
-/

namespace Pyroflow

/-! ### The states -/

/-- Pyrogram's task for a call: it waits for a lock, with all locks before it, has done what
    it does, or has raised `ValueError`, as the handler was not in that group. -/
inductive PyroTask
  | created
  | waiting (lock : ℕ)
  | done
  | rejected
  deriving DecidableEq, Repr

/-- The bookkeeping task of a call: it waits for a lock, with all locks before it, or has
    returned. -/
inductive TrackTask
  | created
  | waiting (lock : ℕ)
  | done
  deriving DecidableEq, Repr

/-- A call of `add_handler` or `remove_handler`, with its two tasks. -/
structure TrackedCall (Handler : Type) where
  added : Bool
  handler : Handler
  group : ℤ
  pyro : PyroTask := .created
  track : TrackTask := .created

/-- The handlers registered, with their groups, the commands collected, the calls in the
    order they were made, the workers at work, and whether `bot_command_groups_lock` is held by
    `push_bot_commands` or `remove_bot_commands`. -/
structure TrackingState (Scope BotCommand Handler : Type) where
  registered : List (ℤ × Handler) := []
  groups : BotCommandGroups Scope BotCommand := []
  calls : List (TrackedCall Handler) := []
  busy : ℕ → Bool := fun _ => false
  pushing : Bool := false

variable {Scope BotCommand Handler : Type}

namespace TrackedCall

variable (c : TrackedCall Handler) (lock : ℕ)

/-- The lock is held by one of the tasks. The lock 0 is `bot_command_groups_lock`, which only the
    bookkeeping takes, the lock `i + 1` that of worker `i`. -/
def holds : Bool :=
  (match c.pyro with
    | .waiting k => decide (1 ≤ lock ∧ lock < k)
    | _ => false) ||
  match c.track with
    | .waiting k => decide (lock < k)
    | _ => false

/-- One of the tasks waits for the lock. -/
def waitsFor : Bool := decide (c.pyro = .waiting lock) || decide (c.track = .waiting lock)

/-- Both tasks have finished. -/
def Finished : Prop := (c.pyro = .done ∨ c.pyro = .rejected) ∧ c.track = .done

end TrackedCall

namespace TrackingState

variable (s : TrackingState Scope BotCommand Handler)

/-- The lock is taken. -/
def locked (lock : ℕ) : Bool :=
  (match lock with
    | 0 => s.pushing
    | i + 1 => s.busy i) || s.calls.any fun c => c.holds lock

/-- The lock cannot be taken at once: it is taken, or others wait for it. -/
def contended (lock : ℕ) : Bool := s.locked lock || s.calls.any fun c => c.waitsFor lock

/-- The first lock from this one on that cannot be taken at once. -/
def blockedFrom (workers lock : ℕ) : Option ℕ :=
  (List.range' lock (workers + 1 - lock)).find? s.contended

/-- The tasks of the calls before this one have started. -/
def StartedBefore (i : ℕ) : Prop :=
  ∀ c ∈ s.calls.take i, c.pyro ≠ .created ∧ c.track ≠ .created

/-- `handler in handlers` for one of the groups of the dispatcher. -/
def isRegistered [DecidableEq Handler] (handler : Handler) : Bool :=
  s.registered.any fun h => decide (h.2 = handler)

/-- All tasks scheduled have finished. -/
def Finished : Prop := ∀ c ∈ s.calls, c.Finished

/-! ### The steps -/

section Steps

variable [DecidableEq Handler] (workers i : ℕ) (c : TrackedCall Handler) (lock : ℕ)

/-- The call `i` has got on. -/
def setCall : TrackingState Scope BotCommand Handler := { s with calls := s.calls.set i c }

/-- Pyrogram's task of the call `i`, with all locks: adds or removes the handler. -/
def register : TrackingState Scope BotCommand Handler :=
  if c.added then
    { s.setCall i { c with pyro := .done } with
      registered := s.registered ++ [(c.group, c.handler)] }
  else if (c.group, c.handler) ∈ s.registered then
    { s.setCall i { c with pyro := .done } with
      registered := s.registered.erase (c.group, c.handler) }
  else s.setCall i { c with pyro := .rejected }

/-- Pyrogram's task of the call `i` runs until it meets a lock it cannot take. -/
def runPyro : TrackingState Scope BotCommand Handler :=
  match s.blockedFrom workers lock with
  | some k => s.setCall i { c with pyro := .waiting k }
  | none => s.register i c

variable [DecidableEq Scope] [DecidableEq BotCommand]
  (marks : Handler → List (BotCommandEntry Scope BotCommand))

/-- The bookkeeping of the call `i`, with all locks: collects or discards the commands. -/
def track : TrackingState Scope BotCommand Handler :=
  { s.setCall i { c with track := .done } with
    groups := trackBotCommands c.added (marks c.handler) s.groups }

/-- The bookkeeping of the call `i` runs until it meets a lock it cannot take. -/
def runTrack : TrackingState Scope BotCommand Handler :=
  match s.blockedFrom workers lock with
  | some k => s.setCall i { c with track := .waiting k }
  | none => s.track i c marks

/-- The bookkeeping of the call `i` starts: it returns at once if the handler is not marked,
    or if it is not registered, or still is. -/
def startTrack : TrackingState Scope BotCommand Handler :=
  if (marks c.handler).isEmpty then s.setCall i { c with track := .done }
  else if s.isRegistered c.handler = c.added then s.runTrack workers i c 0 marks
  else s.setCall i { c with track := .done }

end Steps

end TrackingState

/-- What happens: a call of `add_handler` or `remove_handler`, a worker goes to work or rests,
    a task starts, or gets on once the lock it waits for is free. -/
inductive TrackingLabel (Handler : Type)
  | call (added : Bool) (handler : Handler) (group : ℤ)
  | work (worker : ℕ)
  | rest (worker : ℕ)
  | startPyro (i : ℕ)
  | startTrack (i : ℕ)
  | wakePyro (i : ℕ)
  | wakeTrack (i : ℕ)

section Lts

variable [DecidableEq Scope] [DecidableEq BotCommand] [DecidableEq Handler]
  (marks : Handler → List (BotCommandEntry Scope BotCommand)) (workers : ℕ)

/-- The steps. -/
inductive TrackingState.Step : TrackingState Scope BotCommand Handler → TrackingLabel Handler →
    TrackingState Scope BotCommand Handler → Prop
  | call {s} (added : Bool) (handler : Handler) (group : ℤ) :
      Step s (.call added handler group)
        { s with calls := s.calls ++ [{ added, handler, group }] }
  | work {s i} : i < workers → s.locked (i + 1) = false →
      Step s (.work i) { s with busy := Function.update s.busy i true }
  | rest {s i} : s.busy i = true →
      Step s (.rest i) { s with busy := Function.update s.busy i false }
  | startPyro {s i c} : s.calls[i]? = some c → s.StartedBefore i → c.pyro = .created →
      Step s (.startPyro i) (s.runPyro workers i c 1)
  | startTrack {s i c} : s.calls[i]? = some c → s.StartedBefore i → c.pyro ≠ .created →
      c.track = .created → Step s (.startTrack i) (s.startTrack workers i c marks)
  | wakePyro {s i c lock} : s.calls[i]? = some c → c.pyro = .waiting lock →
      s.locked lock = false → Step s (.wakePyro i) (s.runPyro workers i c (lock + 1))
  | wakeTrack {s i c lock} : s.calls[i]? = some c → c.track = .waiting lock →
      s.locked lock = false → Step s (.wakeTrack i) (s.runTrack workers i c (lock + 1) marks)

/-- A client with handlers marked like this, and this many workers. -/
def trackingLts : Lts (TrackingState Scope BotCommand Handler) (TrackingLabel Handler) where
  init s := s = {}
  step := TrackingState.Step marks workers

end Lts

/-! ### What is collected and what is to be -/

namespace TrackingState

variable {s : TrackingState Scope BotCommand Handler} {i : ℕ} {c : TrackedCall Handler}

variable (s) in
/-- The bookkeeping of a removal goes on only if the removal has been made. -/
def Follows : Prop := ∀ c ∈ s.calls, ∀ lock, c.added = false → c.track = .waiting lock →
  c.pyro = .done

theorem Follows.set {s' : TrackingState Scope BotCommand Handler} {c' : TrackedCall Handler}
    (h : s.Follows) (hcalls : s'.calls = s.calls.set i c')
    (hc' : ∀ lock, c'.added = false → c'.track = .waiting lock → c'.pyro = .done) :
    s'.Follows := by
  intro c hc
  rw [hcalls] at hc
  rcases List.mem_or_eq_of_mem_set hc with hc | rfl
  · exact h c hc
  · exact hc'

variable [DecidableEq Scope] [DecidableEq BotCommand]
  (marks : Handler → List (BotCommandEntry Scope BotCommand))

section Covered

variable (key : BotCommandGroupKey Scope) (command : BotCommand)
  (s : TrackingState Scope BotCommand Handler)

/-- How often the registered handlers declare the command. -/
def declared : ℕ := (botCommandsOf (declaredBotCommands marks s.registered) key).count command

/-- How often the command is collected. -/
def collected : ℕ := (botCommandsOf s.groups key).count command

/-- How often a call has still to collect the command, or, negative, to discard it. -/
def owed (c : TrackedCall Handler) : ℤ :=
  if c.added then
    (if c.pyro = .done then declarations key command (marks c.handler) else 0) -
      if c.track = .done then declarations key command (marks c.handler) else 0
  else if c.pyro = .done ∧ c.track ≠ .done then -declarations key command (marks c.handler)
  else 0

/-- What is collected, and what the calls have still to collect or discard, covers what the
    registered handlers declare. -/
def Covered : Prop :=
  (declared marks key command s : ℤ) ≤
    collected key command s + (s.calls.map (owed marks key command)).sum

end Covered

variable {marks} {key : BotCommandGroupKey Scope} {command : BotCommand}

/-- What a call has still to do depends on which of its tasks are done. -/
theorem owed_congr {c' : TrackedCall Handler} (hadded : c.added = c'.added)
    (hhandler : c.handler = c'.handler) (hpyro : c.pyro = .done ↔ c'.pyro = .done)
    (htrack : c.track = .done ↔ c'.track = .done) :
    owed marks key command c = owed marks key command c' := by
  simp only [owed, hadded, hhandler, hpyro, htrack, ne_eq]

/-- One call gets on: what the registered handlers declare grows by no more than what is
    collected, and what is still to be. -/
theorem Covered.set {s' : TrackingState Scope BotCommand Handler} {c' : TrackedCall Handler}
    (h : Covered marks key command s) (hc : s.calls[i]? = some c)
    (hcalls : s'.calls = s.calls.set i c')
    (hle : (declared marks key command s' : ℤ) + collected key command s +
        owed marks key command c ≤
      declared marks key command s + collected key command s' + owed marks key command c') :
    Covered marks key command s' := by
  obtain ⟨hi, rfl⟩ := List.getElem?_eq_some_iff.1 hc
  -- One summand is replaced.
  have hsum : ((s.calls.set i c').map (owed marks key command)).sum =
      (s.calls.map (owed marks key command)).sum - owed marks key command s.calls[i] +
        owed marks key command c' := by
    rw [List.map_set, List.sum_set', dif_pos (by rwa [List.length_map]), List.getElem_map]
    omega
  rw [Covered] at h ⊢
  rw [hcalls, hsum]
  omega

/-- Nothing changes but where the tasks of a call are. -/
theorem Covered.setCall {c' : TrackedCall Handler} (h : Covered marks key command s)
    (hc : s.calls[i]? = some c)
    (hle : owed marks key command c ≤ owed marks key command c') :
    Covered marks key command (s.setCall i c') :=
  h.set hc rfl (Int.add_le_add_left hle _)

/-- The bookkeeping collects or discards the commands. -/
theorem Covered.track (h : Covered marks key command s) (hc : s.calls[i]? = some c)
    (htrack : c.track ≠ .done) (hdone : c.added = false → c.pyro = .done) :
    Covered marks key command (s.track i c marks) := by
  refine h.set hc rfl ?_
  change (declared marks key command s : ℤ) + _ + _ ≤ _
  rw [owed, owed]
  dsimp only [TrackingState.track, TrackingState.setCall, collected]
  -- An addition collects what it owed; a removal discards no more than what it had to.
  cases hadded : c.added with
  | true =>
    rw [if_pos rfl, if_pos rfl, if_neg htrack, if_pos rfl, count_trackBotCommands_true]
    push_cast
    omega
  | false =>
    have hle : (botCommandsOf s.groups key).count command ≤
        (botCommandsOf (trackBotCommands false (marks c.handler) s.groups) key).count command +
          declarations key command (marks c.handler) := count_le_trackBotCommands_false
    rw [if_neg Bool.false_ne_true, if_neg Bool.false_ne_true, if_pos ⟨hdone hadded, htrack⟩,
      if_neg fun h => h.2 rfl]
    omega

theorem Covered.runTrack (h : Covered marks key command s) (hc : s.calls[i]? = some c)
    (htrack : c.track ≠ .done) (hdone : c.added = false → c.pyro = .done) (workers lock : ℕ) :
    Covered marks key command (s.runTrack workers i c lock marks) := by
  rw [TrackingState.runTrack]
  split
  case h_1 k _ =>
    refine h.setCall hc (le_of_eq (owed_congr rfl rfl Iff.rfl ?_))
    exact iff_of_false htrack TrackTask.noConfusion
  case h_2 => exact h.track hc htrack hdone

variable [DecidableEq Handler]

/-- Pyrogram's task adds or removes the handler. -/
theorem Covered.register (h : Covered marks key command s) (hc : s.calls[i]? = some c)
    (hpyro : c.pyro ≠ .done) : Covered marks key command (s.register i c) := by
  rw [TrackingState.register]
  split
  -- More is declared, and the bookkeeping of the call owes as much.
  case isTrue hadded =>
    refine h.set hc rfl ?_
    rw [owed, owed, if_pos hadded, if_pos hadded, if_neg hpyro, if_pos rfl]
    dsimp only [TrackingState.setCall, declared, collected]
    rw [count_declaredBotCommands_append]
    push_cast
    omega
  case isFalse hadded =>
    have howed : owed marks key command c = 0 := by
      rw [owed, if_neg hadded, if_neg fun h => hpyro h.1]
    split
    -- Less is declared, and the bookkeeping of the call is to discard that at most.
    case isTrue hmem =>
      refine h.set hc rfl ?_
      have hle : -(declarations key command (marks c.handler) : ℤ) ≤
          owed marks key command { c with pyro := .done } := by
        rw [owed, if_neg hadded]
        dsimp only
        split <;> omega
      dsimp only [TrackingState.setCall, declared, collected] at hle ⊢
      rw [count_declaredBotCommands_erase hmem, howed]
      push_cast
      omega
    case isFalse =>
      refine h.setCall hc (howed.trans_le ?_)
      rw [owed, if_neg hadded, if_neg fun h => PyroTask.noConfusion h.1]

theorem Covered.runPyro (h : Covered marks key command s) (hc : s.calls[i]? = some c)
    (hpyro : c.pyro ≠ .done) (workers lock : ℕ) :
    Covered marks key command (s.runPyro workers i c lock) := by
  rw [TrackingState.runPyro]
  split
  case h_1 k _ =>
    refine h.setCall hc (le_of_eq (owed_congr rfl rfl ?_ Iff.rfl))
    exact iff_of_false hpyro PyroTask.noConfusion
  case h_2 => exact h.register hc hpyro

variable (marks) in
/-- A bookkeeping task that starts, for a handler that is marked, sees the handler registered,
    or follows a removal that has been made. -/
def Sees (s : TrackingState Scope BotCommand Handler) : TrackingLabel Handler → Prop
  | .startTrack i => ∀ c, s.calls[i]? = some c → marks c.handler ≠ [] →
      s.isRegistered c.handler = true ∨ c.added = false ∧ c.pyro = .done
  | _ => True

omit [DecidableEq Scope] [DecidableEq BotCommand] in
/-- The bookkeeping of a removal that goes on follows a removal that has been made. -/
theorem removed_of_sees (heq : s.isRegistered c.handler = c.added)
    (hsees : s.isRegistered c.handler = true ∨ c.added = false ∧ c.pyro = .done)
    (hadded : c.added = false) : c.pyro = .done := by
  refine (hsees.resolve_left fun h => ?_).2
  rw [h, hadded] at heq
  exact Bool.false_ne_true heq.symm

/-- The bookkeeping starts, and sees what it looks for. -/
theorem Covered.startTrack (h : Covered marks key command s) (hc : s.calls[i]? = some c)
    (htrack : c.track = .created)
    (hsees : marks c.handler ≠ [] →
      s.isRegistered c.handler = true ∨ c.added = false ∧ c.pyro = .done)
    (workers : ℕ) : Covered marks key command (s.startTrack workers i c marks) := by
  have hne : c.track ≠ .done := fun hdone => TrackTask.noConfusion (htrack.symm.trans hdone)
  rw [TrackingState.startTrack]
  split
  -- The handler is not marked, so there is nothing to collect.
  case isTrue hmarks =>
    refine h.setCall hc (le_of_eq ?_)
    simp only [owed, List.isEmpty_iff.1 hmarks, declarations, List.map_nil, List.sum_nil]
    simp
  case isFalse hmarks =>
    have hsees := hsees fun h => hmarks (List.isEmpty_iff.2 h)
    split
    case isTrue heq =>
      exact h.runTrack hc hne (removed_of_sees heq hsees) workers 0
    case isFalse heq =>
      -- An addition is never skipped.
      have hadded : ¬ c.added = true := fun hadded => by
        rcases hsees with h | ⟨h, -⟩
        · exact heq (h.trans hadded.symm)
        · exact Bool.false_ne_true (h.symm.trans hadded)
      refine h.setCall hc ?_
      rw [owed, owed, if_neg hadded, if_neg hadded]
      split
      · rw [if_neg fun h => h.2 rfl]
        omega
      · rw [if_neg fun h => h.2 rfl]

omit [DecidableEq Scope] [DecidableEq BotCommand] in
theorem Follows.runPyro (h : s.Follows) (hc : s.calls[i]? = some c) (hpyro : c.pyro ≠ .done)
    (workers lock : ℕ) : (s.runPyro workers i c lock).Follows := by
  -- The bookkeeping of a removal would have gone on before the removal was made.
  have hno (p : PyroTask) : ∀ lock, c.added = false → c.track = .waiting lock → p = .done :=
    fun lock hadded htrack => absurd (h c (List.mem_of_getElem? hc) lock hadded htrack) hpyro
  rw [TrackingState.runPyro]
  split
  · exact h.set rfl (hno _)
  · rw [TrackingState.register]
    split
    · exact h.set rfl (hno _)
    · split <;> exact h.set rfl (hno _)

omit [DecidableEq Handler] in
theorem Follows.runTrack (h : s.Follows) (hdone : c.added = false → c.pyro = .done)
    (workers lock : ℕ) : (s.runTrack workers i c lock marks).Follows := by
  rw [TrackingState.runTrack]
  split
  · exact h.set rfl fun _ hadded _ => hdone hadded
  · exact h.set rfl fun _ hadded _ => hdone hadded

theorem Follows.startTrack (h : s.Follows)
    (hsees : marks c.handler ≠ [] →
      s.isRegistered c.handler = true ∨ c.added = false ∧ c.pyro = .done)
    (workers : ℕ) : (s.startTrack workers i c marks).Follows := by
  rw [TrackingState.startTrack]
  split
  case isTrue => exact h.set rfl fun _ _ htrack => TrackTask.noConfusion htrack
  case isFalse hmarks =>
    split
    case isTrue heq =>
      exact h.runTrack (removed_of_sees heq (hsees fun h => hmarks (List.isEmpty_iff.2 h)))
        workers 0
    case isFalse => exact h.set rfl fun _ _ htrack => TrackTask.noConfusion htrack

variable {s' : TrackingState Scope BotCommand Handler} {l : TrackingLabel Handler} {workers : ℕ}

/-- A step where the bookkeeping sees what it looks for. -/
theorem Step.invariant (hst : Step marks workers s l s') (hsees : Sees marks s l)
    (h : s.Follows ∧ ∀ key command, Covered marks key command s) :
    s'.Follows ∧ ∀ key command, Covered marks key command s' := by
  obtain ⟨hf, hcov⟩ := h
  cases hst with
  | call added handler group =>
    refine ⟨fun c hc => ?_, fun key command => ?_⟩
    · -- The tasks of a new call have not started, and owe nothing.
      rcases List.mem_append.1 hc with hc | hc
      · exact hf c hc
      · obtain rfl := List.mem_singleton.1 hc
        exact fun _ _ htrack => TrackTask.noConfusion htrack
    · refine (hcov key command).trans (le_of_eq ?_)
      have howed : owed marks key command { added, handler, group } = 0 := by
        rw [owed]
        cases added <;> rfl
      dsimp only
      rw [List.map_append, List.sum_append, List.map_singleton, List.sum_singleton, howed,
        Int.add_zero]
      rfl
  | work | rest => exact ⟨hf, hcov⟩
  | startPyro hc _ hpyro =>
    exact ⟨hf.runPyro hc (hpyro.trans_ne PyroTask.noConfusion) workers 1, fun key command =>
      (hcov key command).runPyro hc (hpyro.trans_ne PyroTask.noConfusion) workers 1⟩
  | startTrack hc _ _ htrack =>
    exact ⟨hf.startTrack (hsees _ hc) workers, fun key command =>
      (hcov key command).startTrack hc htrack (hsees _ hc) workers⟩
  | wakePyro hc hpyro _ =>
    exact ⟨hf.runPyro hc (hpyro.trans_ne PyroTask.noConfusion) workers _, fun key command =>
      (hcov key command).runPyro hc (hpyro.trans_ne PyroTask.noConfusion) workers _⟩
  | wakeTrack hc htrack _ =>
    have hdone hadded := hf _ (List.mem_of_getElem? hc) _ hadded htrack
    exact ⟨hf.runTrack hdone workers _, fun key command =>
      (hcov key command).runTrack hc (htrack.trans_ne TrackTask.noConfusion) hdone workers _⟩

/-- The runs where the bookkeeping sees what it looks for. -/
theorem invariant_of_reachable
    (h : (trackingLts marks workers).ReachableUnder (Sees marks) s) :
    s.Follows ∧ ∀ key command, Covered marks key command s := by
  refine h.invariant (fun s hs => ?_) fun s l s' hi hp hst => hst.invariant hp hi
  obtain rfl : s = {} := hs
  exact ⟨fun c hc => absurd hc List.not_mem_nil, fun key command => le_rfl⟩

omit [DecidableEq Handler] in
/-- Once all tasks have finished, nothing is owed. -/
theorem owed_nonpos (hc : c.Finished) : owed marks key command c ≤ 0 := by
  obtain ⟨-, htrack⟩ := hc
  rw [owed]
  -- An addition has collected what it had to, if not more; a removal has discarded.
  by_cases hadded : c.added = true
  · rw [if_pos hadded, if_pos htrack]
    split <;> push_cast <;> omega
  · rw [if_neg hadded, if_neg fun h => h.2 htrack]

omit [DecidableEq Handler] in
/-- Once all tasks have finished, what the registered handlers declare is collected. -/
theorem Covered.declared_le (h : Covered marks key command s) (hs : s.Finished) :
    declared marks key command s ≤ collected key command s := by
  have hsum : (s.calls.map (owed marks key command)).sum ≤ 0 :=
    (List.sum_le_card_nsmul _ 0 fun x hx => by
      obtain ⟨c, hc, rfl⟩ := List.mem_map.1 hx
      exact owed_nonpos (hs c hc)).trans (nsmul_zero _).le
  rw [Covered] at h
  omega

end TrackingState

section Main

variable [DecidableEq Scope] [DecidableEq BotCommand] [DecidableEq Handler]
  {marks : Handler → List (BotCommandEntry Scope BotCommand)} {workers : ℕ}
  {s : TrackingState Scope BotCommand Handler}

/-- No command of a registered handler is missing, in the runs where every bookkeeping task
    sees what it looks for when it starts: once all tasks have finished, each command that a
    registered handler is marked with is collected for its language and scope, and it still is
    after a prune. -/
theorem collected_of_sees
    (h : (trackingLts marks workers).ReachableUnder (TrackingState.Sees marks) s)
    (hs : s.Finished) {group : ℤ} {handler : Handler} (hreg : (group, handler) ∈ s.registered)
    {entry : BotCommandEntry Scope BotCommand} (hentry : entry ∈ marks handler)
    {command : BotCommand} (hcommand : command ∈ (splitBotCommandEntry entry).2) :
    command ∈ botCommandsOf s.groups (splitBotCommandEntry entry).1 ∧
      command ∈ botCommandsOf (pruneBotCommands marks s.registered s.groups)
        (splitBotCommandEntry entry).1 := by
  have hcov : s.Covered marks (splitBotCommandEntry entry).1 command :=
    (TrackingState.invariant_of_reachable h).2 _ _
  have hdeclared := mem_declaredBotCommands hreg hentry hcommand
  have hcollected : command ∈ botCommandsOf s.groups (splitBotCommandEntry entry).1 :=
    List.count_pos_iff.1 ((List.count_pos_iff.2 hdeclared).trans_le (hcov.declared_le hs))
  exact ⟨hcollected, mem_pruneBotCommands hcollected hdeclared⟩

end Main

/-- Two handlers marked with the same command. -/
def sharedMarks : Bool → List (BotCommandEntry Unit String) := fun _ => [.commands ["start"]]

/-- Both handlers are added, and one of them is removed. -/
theorem collected_of_sees_start : ∃ s,
    (trackingLts sharedMarks 1).ReachableUnder (TrackingState.Sees sharedMarks) s ∧ s.Finished ∧
      s.registered = [(0, true)] ∧ "start" ∈ botCommandsOf s.groups (none, none) := by
  let first : TrackedCall Bool := ⟨true, false, 0, .done, .done⟩
  let second : TrackedCall Bool := ⟨true, true, 0, .done, .done⟩
  have hfirst : ∀ c ∈ [first], c.pyro ≠ .created ∧ c.track ≠ .created := by decide
  have hsecond : ∀ c ∈ [first, second], c.pyro ≠ .created ∧ c.track ≠ .created := by decide
  have h₀ : (trackingLts sharedMarks 1).ReachableUnder (TrackingState.Sees sharedMarks) {} :=
    .init rfl
  have h₁ := h₀.tail (l := TrackingLabel.call true false 0) trivial (.call true false 0)
  have h₂ := h₁.tail (l := TrackingLabel.startPyro 0) trivial
    (.startPyro rfl (fun _ hc => absurd hc List.not_mem_nil) rfl)
  have h₃ := h₂.tail (l := TrackingLabel.startTrack 0) (fun _ hc _ => .inl (by cases hc; rfl))
    (.startTrack rfl (fun _ hc => absurd hc List.not_mem_nil) PyroTask.noConfusion rfl)
  have h₄ := h₃.tail (l := TrackingLabel.call true true 0) trivial (.call true true 0)
  have h₅ := h₄.tail (l := TrackingLabel.startPyro 1) trivial
    (.startPyro rfl hfirst rfl)
  have h₆ := h₅.tail (l := TrackingLabel.startTrack 1) (fun _ hc _ => .inl (by cases hc; rfl))
    (.startTrack rfl hfirst PyroTask.noConfusion rfl)
  have h₇ := h₆.tail (l := TrackingLabel.call false false 0) trivial (.call false false 0)
  have h₈ := h₇.tail (l := TrackingLabel.startPyro 2) trivial
    (.startPyro rfl hsecond rfl)
  have h₉ := h₈.tail (l := TrackingLabel.startTrack 2)
    (fun _ hc _ => .inr (by cases hc; exact ⟨rfl, rfl⟩))
    (.startTrack rfl hsecond PyroTask.noConfusion rfl)
  obtain ⟨s, h, hs, hreg⟩ : ∃ s : TrackingState Unit String Bool,
      (trackingLts sharedMarks 1).ReachableUnder (TrackingState.Sees sharedMarks) s ∧
      s.Finished ∧ s.registered = [(0, true)] := by
    have hthird : ∀ c ∈ [first, second, ⟨false, false, 0, .done, .done⟩],
        (c.pyro = .done ∨ c.pyro = .rejected) ∧ c.track = .done := by decide
    exact ⟨_, h₉, hthird, rfl⟩
  exact ⟨s, h, hs, hreg, (collected_of_sees h hs (hreg ▸ List.mem_singleton_self _)
    (List.mem_singleton_self _) (List.mem_singleton_self _)).1⟩

/-! ### An addition made while a worker is at work -/

/-- A handler marked with one command. -/
def startMarks : Unit → List (BotCommandEntry Unit String) := fun _ => [.commands ["start"]]

/-- The handler is added while a worker is at work: Pyrogram's task waits, the bookkeeping
    does not see the handler and returns, and then the handler is added. -/
theorem not_collected_of_work : ∃ s, (trackingLts startMarks 1).Reachable s ∧ s.Finished ∧
    (0, ()) ∈ s.registered ∧ botCommandsOf s.groups (none, none) = [] := by
  have h₀ : (trackingLts startMarks 1).Reachable {} := .init rfl
  have h₁ := h₀.tail (l := TrackingLabel.work 0) trivial (.work Nat.one_pos rfl)
  have h₂ := h₁.tail (l := TrackingLabel.call true () 0) trivial (.call true () 0)
  have h₃ := h₂.tail (l := TrackingLabel.startPyro 0) trivial
    (.startPyro rfl (fun _ hc => absurd hc List.not_mem_nil) rfl)
  have h₄ := h₃.tail (l := TrackingLabel.startTrack 0) trivial
    (.startTrack rfl (fun _ hc => absurd hc List.not_mem_nil) PyroTask.noConfusion rfl)
  have h₅ := h₄.tail (l := TrackingLabel.rest 0) trivial (.rest rfl)
  have h₆ := h₅.tail (l := TrackingLabel.wakePyro 0) trivial (.wakePyro rfl rfl rfl)
  refine ⟨_, h₆, fun c hc => ?_, List.mem_singleton_self _, rfl⟩
  obtain rfl := List.mem_singleton.1 hc
  exact ⟨.inl rfl, rfl⟩

end Pyroflow
