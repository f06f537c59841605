import Pyroflow.Commands.Tracking

/-!
# Publishing bot commands

The runs of a client from its `start` to its `stop`: handlers are added and removed with
their bookkeeping, as in `Pyroflow.Commands.Tracking`, and meanwhile `push_bot_commands`
prunes the commands collected and sends each group to Telegram. What has been sent is not
recorded: `stop` deletes the groups that are collected by then.

A group may have gone since it was sent, with the last of its commands. In the runs where
no discard and no prune drops a group that has been sent (`Keeps`), the groups collected
cover what was sent, and `stop` leaves nothing behind (`cleared_of_keeps`).
-/

namespace Pyroflow

variable {Scope BotCommand Handler : Type}

/-- A client: the state of its bookkeeping, the groups that `set_bot_commands` was called for
    since the client last stopped, the commands Telegram shows, the groups that `stop` has
    called `delete_bot_commands` for, and whether it has yet to prune. -/
structure PublishingState (Scope BotCommand Handler : Type)
    extends TrackingState Scope BotCommand Handler where
  published : List (BotCommandGroupKey Scope) := []
  telegram : BotCommandGroupKey Scope → List BotCommand := fun _ => []
  cleared : List (BotCommandGroupKey Scope) := []
  stopping : Bool := false

/-- What happens: a step of the bookkeeping, `push_bot_commands` or `remove_bot_commands` gets
    its lock and sends its calls, all of them are answered, or `stop` prunes in the end. -/
inductive PublishingLabel (Handler : Type)
  | tracking (l : TrackingLabel Handler)
  | push
  | stop
  | answered
  | stopped

variable [DecidableEq Scope] [DecidableEq BotCommand] [DecidableEq Handler]
  (marks : Handler → List (BotCommandEntry Scope BotCommand)) (workers : ℕ)

/-- What Telegram shows after these calls of `set_bot_commands`. -/
def setBotCommands (telegram : BotCommandGroupKey Scope → List BotCommand)
    (calls : BotCommandGroups Scope BotCommand) : BotCommandGroupKey Scope → List BotCommand :=
  calls.foldl (fun telegram call => Function.update telegram call.1 call.2) telegram

/-- What Telegram shows after a call of `delete_bot_commands` for each of these groups. -/
def deleteBotCommands (telegram : BotCommandGroupKey Scope → List BotCommand)
    (keys : List (BotCommandGroupKey Scope)) : BotCommandGroupKey Scope → List BotCommand :=
  keys.foldl (fun telegram key => Function.update telegram key []) telegram

namespace PublishingState

variable (s : PublishingState Scope BotCommand Handler)

/-- `push_bot_commands`, with its lock: prunes, and sets the commands of each group that is left. -/
def push : PublishingState Scope BotCommand Handler :=
  let groups := pruneBotCommands marks s.registered s.groups
  let calls := publishedBotCommands groups
  { s with
    groups
    pushing := true
    published := s.published ++ calls.map Prod.fst
    telegram := setBotCommands s.telegram calls }

/-- `remove_bot_commands`, with its lock: deletes the commands of each group collected. -/
def removeBotCommands : PublishingState Scope BotCommand Handler :=
  { s with
    pushing := true
    stopping := true
    published := []
    cleared := s.groups.map Prod.fst
    telegram := deleteBotCommands s.telegram (s.groups.map Prod.fst) }

end PublishingState

/-- The steps. -/
inductive PublishingState.Step : PublishingState Scope BotCommand Handler →
    PublishingLabel Handler → PublishingState Scope BotCommand Handler → Prop
  | tracking {s l t} : TrackingState.Step marks workers s.toTrackingState l t →
      Step s (.tracking l) { s with toTrackingState := t }
  | push {s} : s.locked 0 = false → Step s .push (s.push marks)
  | stop {s} : s.locked 0 = false → Step s .stop s.removeBotCommands
  | answered {s} : s.pushing = true → Step s .answered { s with pushing := false }
  | stopped {s} : s.stopping = true → Step s .stopped
      { s with groups := pruneBotCommands marks s.registered s.groups, stopping := false }

/-- A client with handlers marked like this, and this many workers. -/
def publishingLts : Lts (PublishingState Scope BotCommand Handler) (PublishingLabel Handler) where
  init s := s = {}
  step := PublishingState.Step marks workers

/-! ### Which groups are kept -/

/-- In this step the bookkeeping of a removal has all locks, and discards the commands of
    this handler. -/
def TrackingState.Discards (s : TrackingState Scope BotCommand Handler) (handler : Handler) :
    TrackingLabel Handler → Prop
  | .startTrack i => ∃ c, s.calls[i]? = some c ∧ c.handler = handler ∧ c.added = false ∧
      marks handler ≠ [] ∧ s.isRegistered handler = false ∧ s.blockedFrom workers 0 = none
  | .wakeTrack i => ∃ c lock, s.calls[i]? = some c ∧ c.handler = handler ∧ c.added = false ∧
      c.track = .waiting lock ∧ s.blockedFrom workers (lock + 1) = none
  | _ => False

/-- A discard or a prune leaves each group that has been sent one command at least. -/
def PublishingState.Keeps (s : PublishingState Scope BotCommand Handler) :
    PublishingLabel Handler → Prop
  | .tracking l => ∀ handler, s.Discards marks workers handler l → ∀ key ∈ s.published,
      key ∈ (trackBotCommands false (marks handler) s.groups).map Prod.fst
  | .push | .stopped => ∀ key ∈ s.published,
      key ∈ (pruneBotCommands marks s.registered s.groups).map Prod.fst
  | .stop | .answered => True

variable {marks workers}

section Groups

variable {groups : BotCommandGroups Scope BotCommand} {key : BotCommandGroupKey Scope}

/-- Collecting drops no group. -/
theorem mem_trackBotCommands_true (h : key ∈ groups.map Prod.fst)
    (entries : List (BotCommandEntry Scope BotCommand)) :
    key ∈ (trackBotCommands true entries groups).map Prod.fst := by
  induction entries generalizing groups with
  | nil => exact h
  | cons entry entries ih => exact ih (mem_keys_collectBotCommands.2 (.inr h))

omit [DecidableEq Scope] in
/-- Only groups that are collected are sent. -/
theorem mem_of_mem_publishedBotCommands (h : key ∈ (publishedBotCommands groups).map Prod.fst) :
    key ∈ groups.map Prod.fst := by
  obtain ⟨call, hcall, rfl⟩ := List.mem_map.1 h
  obtain ⟨group, hgroup, hsome⟩ := List.mem_filterMap.1 hcall
  dsimp only at hsome
  split at hsome
  · cases hsome
  · cases hsome
    exact List.mem_map.2 ⟨group, hgroup, rfl⟩

end Groups

namespace TrackingState

variable {s s' : TrackingState Scope BotCommand Handler} {c : TrackedCall Handler}
  {l : TrackingLabel Handler}

omit [DecidableEq Scope] [DecidableEq BotCommand] in
theorem groups_runPyro (i lock : ℕ) : (s.runPyro workers i c lock).groups = s.groups := by
  rw [runPyro]
  split
  · rfl
  · rw [register]
    split
    · rfl
    · split <;> rfl

variable (s c marks) in
omit [DecidableEq Handler] in
/-- The bookkeeping of a call keeps the groups, or discards the commands of its handler. -/
theorem groups_runTrack (i lock : ℕ) :
    (∀ key ∈ s.groups.map Prod.fst,
      key ∈ (s.runTrack workers i c lock marks).groups.map Prod.fst) ∨
    c.added = false ∧ s.blockedFrom workers lock = none ∧
      (s.runTrack workers i c lock marks).groups =
        trackBotCommands false (marks c.handler) s.groups := by
  rw [runTrack]
  split
  case h_1 => exact .inl fun _ h => h
  case h_2 hnone =>
    rw [track]
    dsimp only
    -- It has all locks: an addition only adds groups.
    cases hadded : c.added with
    | true => exact .inl fun key h => mem_trackBotCommands_true h _
    | false => exact .inr ⟨rfl, hnone, rfl⟩

/-- What a step of the bookkeeping does to the groups. -/
theorem Step.groups (hst : Step marks workers s l s') :
    (∀ key ∈ s.groups.map Prod.fst, key ∈ s'.groups.map Prod.fst) ∨
      ∃ handler, s.Discards marks workers handler l ∧
        s'.groups = trackBotCommands false (marks handler) s.groups := by
  -- Only a bookkeeping task with all locks changes the groups.
  cases hst with
  | call | work | rest => exact .inl fun _ h => h
  | startPyro | wakePyro =>
    refine .inl fun key h => ?_
    rwa [groups_runPyro]
  | @startTrack i c hc =>
    rw [TrackingState.startTrack]
    split
    case isTrue => exact .inl fun _ h => h
    case isFalse hmarks =>
      split
      case isTrue heq =>
        rcases groups_runTrack marks s c i 0 with h | ⟨hadded, hnone, heq'⟩
        · exact .inl h
        · refine .inr ⟨c.handler, ⟨c, hc, rfl, hadded, fun h => hmarks ?_, ?_, hnone⟩, heq'⟩
          · exact List.isEmpty_iff.2 h
          · exact heq.trans hadded
      case isFalse => exact .inl fun _ h => h
  | @wakeTrack i c lock hc htrack =>
    rcases groups_runTrack marks s c i (lock + 1) with h | ⟨hadded, hnone, heq⟩
    · exact .inl h
    · exact .inr ⟨c.handler, ⟨c, lock, hc, rfl, hadded, htrack, hnone⟩, heq⟩

end TrackingState

/-! ### What Telegram shows -/

section Telegram

variable {key : BotCommandGroupKey Scope}

omit [DecidableEq BotCommand] in
/-- Calls for other groups change nothing for this one. -/
theorem setBotCommands_of_notMem {calls : BotCommandGroups Scope BotCommand}
    (h : key ∉ calls.map Prod.fst) (telegram : BotCommandGroupKey Scope → List BotCommand) :
    setBotCommands telegram calls key = telegram key := by
  induction calls generalizing telegram with
  | nil => rfl
  | cons call calls ih =>
    rw [List.map_cons, List.mem_cons, not_or] at h
    exact (ih h.2 _).trans (Function.update_of_ne h.1 _ _)

omit [DecidableEq BotCommand] in
/-- The groups deleted show nothing, the others what they did. -/
theorem deleteBotCommands_apply (keys : List (BotCommandGroupKey Scope))
    (telegram : BotCommandGroupKey Scope → List BotCommand) :
    deleteBotCommands telegram keys key = if key ∈ keys then [] else telegram key := by
  induction keys generalizing telegram with
  | nil => rfl
  | cons k keys ih =>
    refine (ih _).trans ?_
    dsimp only
    by_cases hkeys : key ∈ keys
    · rw [if_pos hkeys, if_pos (List.mem_cons_of_mem _ hkeys)]
    · rw [if_neg hkeys]
      by_cases hk : key = k
      · rw [hk, Function.update_self, if_pos List.mem_cons_self]
      · rw [Function.update_of_ne hk, if_neg fun h => (List.mem_cons.1 h).elim hk hkeys]

end Telegram

namespace PublishingState

variable {s s' : PublishingState Scope BotCommand Handler} {l : PublishingLabel Handler}

/-- The groups collected cover what was sent, and what was sent covers what Telegram shows. -/
structure Accounted (s : PublishingState Scope BotCommand Handler) : Prop where
  collected : ∀ key ∈ s.published, key ∈ s.groups.map Prod.fst
  shown : ∀ key, s.telegram key ≠ [] → key ∈ s.published

/-- A step that keeps the groups that have been sent. -/
theorem Accounted.step (hs : s.Accounted) (hkeeps : s.Keeps marks workers l)
    (hst : Step marks workers s l s') : s'.Accounted := by
  cases hst with
  | tracking hst =>
    refine ⟨fun key hkey => ?_, hs.shown⟩
    rcases hst.groups with h | ⟨handler, hdiscards, heq⟩
    · exact h key (hs.collected key hkey)
    · dsimp only
      rw [heq]
      exact hkeeps handler hdiscards key hkey
  | push =>
    refine ⟨fun key hkey => ?_, fun key hkey => ?_⟩
    · -- Sent before, or sent just now.
      rcases List.mem_append.1 hkey with hkey | hkey
      · exact hkeeps key hkey
      · exact mem_of_mem_publishedBotCommands hkey
    · -- What was not sent just now shows what it did.
      by_contra hmem
      rw [PublishingState.push] at hkey hmem
      dsimp only at hkey hmem
      rw [List.mem_append, not_or] at hmem
      rw [setBotCommands_of_notMem hmem.2] at hkey
      exact hmem.1 (hs.shown key hkey)
  | stop =>
    refine ⟨fun key hkey => absurd hkey List.not_mem_nil, fun key hkey => ?_⟩
    -- What still shows something was not deleted, and so not collected, and so not shown.
    rw [removeBotCommands] at hkey
    dsimp only at hkey
    rw [deleteBotCommands_apply] at hkey
    split at hkey
    case isTrue => exact absurd rfl hkey
    case isFalse h => exact absurd (hs.collected key (hs.shown key hkey)) h
  | answered => exact ⟨hs.collected, hs.shown⟩
  | stopped => exact ⟨hkeeps, hs.shown⟩

/-- A run. -/
theorem accounted_of_reachable
    (h : (publishingLts marks workers).ReachableUnder (Keeps marks workers) s) : s.Accounted := by
  refine h.invariant (fun s hs => ?_) fun s l s' hi hp hst => hi.step hp hst
  obtain rfl : s = {} := hs
  exact ⟨fun _ hkey => absurd hkey List.not_mem_nil, fun _ hkey => absurd rfl hkey⟩

/-- `stop` deletes everything that was published, in the runs where no discard and no prune
    drops a group that has been sent: it calls `delete_bot_commands` for each language and
    scope that some `push_bot_commands` called `set_bot_commands` for, and Telegram shows no
    commands after it. -/
theorem cleared_of_keeps
    (h : (publishingLts marks workers).ReachableUnder (Keeps marks workers) s)
    (hst : Step marks workers s .stop s') :
    (∀ key ∈ s.published, key ∈ s'.cleared) ∧ ∀ key, s'.telegram key = [] := by
  have hs := accounted_of_reachable h
  cases hst
  refine ⟨hs.collected, fun key => ?_⟩
  rw [removeBotCommands]
  dsimp only
  rw [deleteBotCommands_apply]
  split
  case isTrue => rfl
  case isFalse h =>
    by_contra hkey
    exact h (hs.collected key (hs.shown key hkey))

end PublishingState

/-! ### A handler that is gone before the client stops -/

/-- A handler has been added, and its command collected and sent. -/
def startState : PublishingState Unit String Unit where
  registered := [(0, ())]
  groups := [((none, none), ["start"])]
  calls := [⟨true, (), 0, .done, .done⟩]
  published := [(none, none)]
  telegram := Function.update (fun _ => []) (none, none) ["start"]

/-- The handler is added, and the client starts. -/
theorem reachable_startState :
    (publishingLts startMarks 1).ReachableUnder (PublishingState.Keeps startMarks 1)
      startState := by
  have h₀ : (publishingLts startMarks 1).ReachableUnder (PublishingState.Keeps startMarks 1) {} :=
    .init rfl
  have h₁ := h₀.tail (l := PublishingLabel.tracking (TrackingLabel.call true () 0))
    (fun _ _ _ hkey => absurd hkey List.not_mem_nil) (.tracking (.call true () 0))
  have h₂ := h₁.tail (l := PublishingLabel.tracking (TrackingLabel.startPyro 0))
    (fun _ _ _ hkey => absurd hkey List.not_mem_nil)
    (.tracking (.startPyro rfl (fun _ hc => absurd hc List.not_mem_nil) rfl))
  have h₃ := h₂.tail (l := PublishingLabel.tracking (TrackingLabel.startTrack 0))
    (fun _ _ _ hkey => absurd hkey List.not_mem_nil)
    (.tracking (.startTrack rfl (fun _ hc => absurd hc List.not_mem_nil) PyroTask.noConfusion rfl))
  have h₄ := h₃.tail (l := PublishingLabel.push)
    (fun _ hkey => absurd hkey List.not_mem_nil) (.push rfl)
  exact h₄.tail (l := PublishingLabel.answered) trivial (.answered rfl)

/-- The client stops with the handler registered. -/
theorem cleared_of_keeps_start : ∃ s' : PublishingState Unit String Unit,
    PublishingState.Step startMarks 1 startState .stop s' ∧ (none, none) ∈ s'.cleared :=
  ⟨_, .stop rfl, (PublishingState.cleared_of_keeps reachable_startState (.stop rfl)).1 _
    List.mem_cons_self⟩

/-- The handler is removed, which drops the group of its command; then the client stops, and
    the command stays with Telegram. -/
theorem not_cleared_of_remove : ∃ s s' : PublishingState Unit String Unit,
    (publishingLts startMarks 1).Reachable s ∧ PublishingState.Step startMarks 1 s .stop s' ∧
      (none, none) ∈ s.published ∧ (none, none) ∉ s'.cleared ∧
      s'.telegram (none, none) = ["start"] := by
  have h₀ := reachable_startState.reachable
  have h₁ := h₀.tail (l := PublishingLabel.tracking (TrackingLabel.call false () 0)) trivial
    (.tracking (.call false () 0))
  have hstarted : ∀ c ∈ [(⟨true, (), 0, .done, .done⟩ : TrackedCall Unit)],
      c.pyro ≠ .created ∧ c.track ≠ .created := fun c hc => by
    obtain rfl := List.mem_singleton.1 hc
    exact ⟨PyroTask.noConfusion, TrackTask.noConfusion⟩
  have h₂ := h₁.tail (l := PublishingLabel.tracking (TrackingLabel.startPyro 1)) trivial
    (.tracking (.startPyro rfl hstarted rfl))
  have h₃ := h₂.tail (l := PublishingLabel.tracking (TrackingLabel.startTrack 1)) trivial
    (.tracking (.startTrack rfl hstarted PyroTask.noConfusion rfl))
  exact ⟨_, _, h₃, .stop rfl, List.mem_cons_self, List.not_mem_nil, rfl⟩

end Pyroflow
