import Mathlib.Algebra.BigOperators.Group.List.Basic
import Mathlib.Algebra.GroupWithZero.Nat
import Mathlib.Algebra.Order.BigOperators.Group.List
import Mathlib.Algebra.Order.Group.Nat
import Mathlib.Data.List.Basic

/-!
# Bot commands

The data of `BotCommandsMixin` and what it does to it. Handlers are marked with the bot
commands they answer to (`BotCommandEntry`), each for a language and a scope. The client
collects the commands of the handlers that are registered, in one group for each language
and scope (`BotCommandGroups`), counting each command as often as it was collected.

What matters of a group is how often each command is in it: collecting adds what is
declared (`count_trackBotCommands_true`), discarding takes away no more than that
(`count_le_trackBotCommands_false`), and pruning keeps what is still declared
(`mem_pruneBotCommands`).
-/

namespace Pyroflow

/-- `BotCommandGroupKeyT`: a language code and a scope. -/
abbrev BotCommandGroupKey (Scope : Type) : Type := Option String × Option Scope

/-- `BotCommandEntryT`: commands, optionally preceded by the scope they apply to, optionally
    preceded by a language code. A single command is a list of one (`to_list`). -/
inductive BotCommandEntry (Scope BotCommand : Type)
  | commands (commands : List BotCommand)
  | scoped (scope : Scope) (commands : List BotCommand)
  | localized (languageCode : String) (scope : Scope) (commands : List BotCommand)
  deriving DecidableEq, Repr

variable {Scope BotCommand Handler : Type}

/-- `split_bot_command_entry`. -/
def splitBotCommandEntry :
    BotCommandEntry Scope BotCommand → BotCommandGroupKey Scope × List BotCommand
  | .commands commands => ((none, none), commands)
  | .scoped scope commands => ((none, some scope), commands)
  | .localized languageCode scope commands => ((some languageCode, some scope), commands)

/-- `bot_command_groups`: the commands collected for each language and scope. -/
abbrev BotCommandGroups (Scope BotCommand : Type) : Type :=
  List (BotCommandGroupKey Scope × List BotCommand)

variable [DecidableEq Scope] [DecidableEq BotCommand]

/-! ### The operations -/

/-- `_collect_bot_commands`: adds the commands to their group, creating it if new. -/
def collectBotCommands (key : BotCommandGroupKey Scope) (commands : List BotCommand) :
    BotCommandGroups Scope BotCommand → BotCommandGroups Scope BotCommand
  | [] => [(key, commands)]
  | (key', commands') :: groups =>
    if key' = key then (key', commands' ++ commands) :: groups
    else (key', commands') :: collectBotCommands key commands groups

/-- `_discard_bot_commands`: removes one of each of the commands from their group, if it is
    there, and drops the group once it is empty. -/
def discardBotCommands (key : BotCommandGroupKey Scope) (commands : List BotCommand) :
    BotCommandGroups Scope BotCommand → BotCommandGroups Scope BotCommand
  | [] => []
  | (key', commands') :: groups =>
    if key' = key then
      if commands.foldl List.erase commands' = [] then groups
      else (key', commands.foldl List.erase commands') :: groups
    else (key', commands') :: discardBotCommands key commands groups

/-- The loop of `_track_bot_commands` over the entries of a handler. -/
def trackBotCommands (added : Bool) (entries : List (BotCommandEntry Scope BotCommand))
    (groups : BotCommandGroups Scope BotCommand) : BotCommandGroups Scope BotCommand :=
  entries.foldl (fun groups entry =>
    let (key, commands) := splitBotCommandEntry entry
    if added then collectBotCommands key commands groups
    else discardBotCommands key commands groups) groups

/-- The commands of a group; none if there is no such group. -/
def botCommandsOf (groups : BotCommandGroups Scope BotCommand) (key : BotCommandGroupKey Scope) :
    List BotCommand :=
  (groups.lookup key).getD []

section Handlers

variable (marks : Handler → List (BotCommandEntry Scope BotCommand))
  (registered : List (ℤ × Handler))

/-- `_prune_bot_commands`, its first loop: the commands that registered handlers declare. -/
def declaredBotCommands : BotCommandGroups Scope BotCommand :=
  registered.foldl (fun declared h => trackBotCommands true (marks h.2) declared) []

/-- `_prune_bot_commands`: drops every collected command that no registered handler declares,
    and the groups that are then empty. -/
def pruneBotCommands (groups : BotCommandGroups Scope BotCommand) :
    BotCommandGroups Scope BotCommand :=
  let declared := declaredBotCommands marks registered
  if declared.isEmpty then []
  else groups.filterMap fun (key, commands) =>
    let commands := commands.filter (· ∈ botCommandsOf declared key)
    if commands.isEmpty then none else some (key, commands)

/-- The loop of `push_bot_commands` over a group: the commands without duplicates. -/
def uniqueBotCommands (commands : List BotCommand) : List BotCommand :=
  commands.foldl (fun unique command =>
    if command ∈ unique then unique else unique ++ [command]) []

/-- The calls of `set_bot_commands` made by `push_bot_commands`. -/
def publishedBotCommands (groups : BotCommandGroups Scope BotCommand) :
    BotCommandGroups Scope BotCommand :=
  groups.filterMap fun (key, commands) =>
    let unique := uniqueBotCommands commands
    if unique.isEmpty then none else some (key, unique)

/-- How often a handler declares a command for a language and a scope. -/
def declarations (key : BotCommandGroupKey Scope) (command : BotCommand)
    (entries : List (BotCommandEntry Scope BotCommand)) : ℕ :=
  (entries.map fun entry =>
    if (splitBotCommandEntry entry).1 = key then (splitBotCommandEntry entry).2.count command
    else 0).sum

end Handlers

/-! ### How often a command is collected -/

variable {groups : BotCommandGroups Scope BotCommand} {key key' : BotCommandGroupKey Scope}
  {command : BotCommand} {commands : List BotCommand}

omit [DecidableEq BotCommand] in
theorem botCommandsOf_cons (commands : List BotCommand) :
    botCommandsOf ((key', commands) :: groups) key =
      if key = key' then commands else botCommandsOf groups key := by
  rw [botCommandsOf, List.lookup_cons]
  split
  next h => rw [if_pos (beq_iff_eq.1 h), Option.getD_some]
  next h => rw [if_neg (by simpa using h), botCommandsOf]

omit [DecidableEq BotCommand] in
/-- Collecting adds the commands to their group, and leaves the others. -/
theorem botCommandsOf_collectBotCommands :
    botCommandsOf (collectBotCommands key' commands groups) key =
      if key = key' then botCommandsOf groups key ++ commands else botCommandsOf groups key := by
  -- By induction on the groups up to the one collected into, which may be a new one.
  induction groups with
  | nil =>
    rw [collectBotCommands, botCommandsOf_cons]
    rfl
  | cons g groups ih =>
    obtain ⟨k, commands'⟩ := g
    rw [collectBotCommands]
    split
    case isTrue h =>
      subst h
      rw [botCommandsOf_cons, botCommandsOf_cons]
      split <;> rfl
    case isFalse h =>
      rw [botCommandsOf_cons, botCommandsOf_cons, ih]
      by_cases hk : key = k
      · subst hk
        rw [if_pos rfl, if_pos rfl, if_neg h]
      · rw [if_neg hk, if_neg hk]

omit [DecidableEq BotCommand] in
/-- Collecting adds a group at most, the one collected into. -/
theorem mem_keys_collectBotCommands :
    key ∈ (collectBotCommands key' commands groups).map Prod.fst ↔
      key = key' ∨ key ∈ groups.map Prod.fst := by
  induction groups with
  | nil => rw [collectBotCommands, List.map_singleton, List.mem_singleton, List.map_nil,
      or_iff_left List.not_mem_nil]
  | cons g groups ih =>
    rw [collectBotCommands]
    split
    case isTrue h =>
      subst h
      rw [List.map_cons, List.map_cons, List.mem_cons, or_self_left]
    case isFalse =>
      rw [List.map_cons, List.map_cons, List.mem_cons, List.mem_cons, ih, or_left_comm]

/-- Removing commands takes away no more than these. -/
theorem count_le_foldl_erase (commands commands' : List BotCommand) :
    commands'.count command ≤
      (commands.foldl List.erase commands').count command + commands.count command := by
  induction commands generalizing commands' with
  | nil => exact Nat.le_add_right _ _
  | cons c commands ih =>
    have := ih (commands'.erase c)
    rw [List.count_erase] at this
    rw [List.foldl_cons, List.count_cons]
    omega

/-- Discarding takes away no more than the commands discarded. -/
theorem count_le_discardBotCommands :
    (botCommandsOf groups key).count command ≤
      (botCommandsOf (discardBotCommands key' commands groups) key).count command +
        if key' = key then commands.count command else 0 := by
  induction groups with
  | nil => exact Nat.zero_le _
  | cons g groups ih =>
    obtain ⟨k, commands'⟩ := g
    rw [discardBotCommands]
    split
    case isTrue h =>
      subst h
      -- The group discarded from: it loses no more than the commands, also if it is dropped.
      have hle : commands'.count command ≤ _ := count_le_foldl_erase commands commands'
      rw [botCommandsOf_cons]
      split
      case isTrue h =>
        subst h
        rw [if_pos rfl]
        split
        case isTrue h =>
          rw [h, List.count_nil] at hle
          omega
        case isFalse => rwa [botCommandsOf_cons, if_pos rfl]
      case isFalse h =>
        split
        · exact Nat.le_add_right _ _
        · rw [botCommandsOf_cons, if_neg h]
          exact Nat.le_add_right _ _
    case isFalse h =>
      rw [botCommandsOf_cons, botCommandsOf_cons]
      split
      · exact Nat.le_add_right _ _
      · exact ih

variable {entries : List (BotCommandEntry Scope BotCommand)}

theorem declarations_cons (entry : BotCommandEntry Scope BotCommand) :
    declarations key command (entry :: entries) =
      (if (splitBotCommandEntry entry).1 = key then (splitBotCommandEntry entry).2.count command
        else 0) + declarations key command entries := List.sum_cons

/-- What a handler declares is collected. -/
theorem count_trackBotCommands_true :
    (botCommandsOf (trackBotCommands true entries groups) key).count command =
      (botCommandsOf groups key).count command + declarations key command entries := by
  induction entries generalizing groups with
  | nil => rfl
  | cons entry entries ih =>
    rw [declarations_cons, ← Nat.add_assoc]
    refine ih.trans (congrArg (· + _) ?_)
    dsimp only
    rw [if_pos rfl, botCommandsOf_collectBotCommands]
    split
    case isTrue h => rw [if_pos h.symm, List.count_append]
    case isFalse h => rw [if_neg (Ne.symm h), Nat.add_zero]

/-- No more than what a handler declares is discarded. -/
theorem count_le_trackBotCommands_false :
    (botCommandsOf groups key).count command ≤
      (botCommandsOf (trackBotCommands false entries groups) key).count command +
        declarations key command entries := by
  induction entries generalizing groups with
  | nil => exact Nat.le_add_right _ _
  | cons entry entries ih =>
    rw [declarations_cons, ← Nat.add_assoc]
    -- What the first entry takes away, and then what the others do.
    let groups' :=
      discardBotCommands (splitBotCommandEntry entry).1 (splitBotCommandEntry entry).2 groups
    have hle : (botCommandsOf groups key).count command ≤
      (botCommandsOf groups' key).count command + _ := count_le_discardBotCommands
    have : (botCommandsOf groups' key).count command ≤ _ := ih
    change _ ≤ (botCommandsOf (trackBotCommands false entries groups') key).count command + _ + _
    omega

/-! ### What is declared -/

section Handlers

variable {marks : Handler → List (BotCommandEntry Scope BotCommand)}
  {registered : List (ℤ × Handler)}

/-- What is declared once is declared. -/
theorem declarations_pos {entry : BotCommandEntry Scope BotCommand} (h : entry ∈ entries)
    (hc : command ∈ (splitBotCommandEntry entry).2) :
    0 < declarations (splitBotCommandEntry entry).1 command entries := by
  induction entries with
  | nil => cases h
  | cons e entries ih =>
    rw [declarations_cons]
    rcases List.mem_cons.1 h with rfl | h
    · rw [if_pos rfl]
      exact Nat.add_pos_left (List.count_pos_iff.2 hc) _
    · exact Nat.add_pos_right _ (ih h)

/-- How often a command is declared by the handlers that are registered. -/
theorem count_declaredBotCommands :
    (botCommandsOf (declaredBotCommands marks registered) key).count command =
      (registered.map fun h => declarations key command (marks h.2)).sum := by
  -- Each handler adds its own, whatever has been collected before it.
  have h (declared : BotCommandGroups Scope BotCommand) :
      (botCommandsOf (registered.foldl (fun declared h =>
        trackBotCommands true (marks h.2) declared) declared) key).count command =
      (botCommandsOf declared key).count command +
        (registered.map fun h => declarations key command (marks h.2)).sum := by
    induction registered generalizing declared with
    | nil => rfl
    | cons h registered ih =>
      rw [List.foldl_cons, ih, count_trackBotCommands_true, List.map_cons, List.sum_cons,
        Nat.add_assoc]
  exact (h []).trans (Nat.zero_add _)

/-- One more handler declares what it is marked with. -/
theorem count_declaredBotCommands_append (h : ℤ × Handler) :
    (botCommandsOf (declaredBotCommands marks (registered ++ [h])) key).count command =
      (botCommandsOf (declaredBotCommands marks registered) key).count command +
        declarations key command (marks h.2) := by
  rw [declaredBotCommands, List.foldl_append]
  exact count_trackBotCommands_true

/-- Without a handler, what it is marked with is declared that much less often. -/
theorem count_declaredBotCommands_erase [DecidableEq Handler] {h : ℤ × Handler}
    (hmem : h ∈ registered) :
    (botCommandsOf (declaredBotCommands marks registered) key).count command =
      (botCommandsOf (declaredBotCommands marks (registered.erase h)) key).count command +
        declarations key command (marks h.2) := by
  rw [count_declaredBotCommands, count_declaredBotCommands, Nat.add_comm, ← List.sum_cons]
  exact ((List.perm_cons_erase hmem).map fun h => declarations key command (marks h.2)).sum_eq

/-- What a registered handler is marked with is declared. -/
theorem mem_declaredBotCommands {h : ℤ × Handler} (hreg : h ∈ registered)
    {entry : BotCommandEntry Scope BotCommand} (hentry : entry ∈ marks h.2)
    (hc : command ∈ (splitBotCommandEntry entry).2) :
    command ∈
      botCommandsOf (declaredBotCommands marks registered) (splitBotCommandEntry entry).1 := by
  rw [← List.count_pos_iff, count_declaredBotCommands]
  exact (declarations_pos hentry hc).trans_le
    (List.single_le_sum (fun _ _ => Nat.zero_le _) _ (List.mem_map.2 ⟨h, hreg, rfl⟩))

/-- Pruning keeps what is collected and declared. -/
theorem mem_pruneBotCommands (hg : command ∈ botCommandsOf groups key)
    (hd : command ∈ botCommandsOf (declaredBotCommands marks registered) key) :
    command ∈ botCommandsOf (pruneBotCommands marks registered groups) key := by
  rw [pruneBotCommands]
  dsimp only
  split
  case isTrue h =>
    rw [List.isEmpty_iff.1 h] at hd
    cases hd
  case isFalse =>
    induction groups with
    | nil => cases hg
    | cons g groups ih =>
      obtain ⟨k, commands⟩ := g
      rw [botCommandsOf_cons] at hg
      rw [List.filterMap_cons]
      dsimp only
      by_cases he : (commands.filter fun command =>
          decide (command ∈ botCommandsOf (declaredBotCommands marks registered) k)).isEmpty
      · rw [if_pos he]
        split at hg
        case isTrue hk =>
          -- The command would be left.
          subst hk
          have hnil := List.filter_eq_nil_iff.1 (List.isEmpty_iff.1 he) command hg
          exact absurd (decide_eq_true hd) hnil
        case isFalse => exact ih hg
      · rw [if_neg he]
        dsimp only
        rw [botCommandsOf_cons]
        split at hg
        case isTrue hk =>
          subst hk
          rw [if_pos rfl]
          exact List.mem_filter.2 ⟨hg, decide_eq_true hd⟩
        case isFalse hk =>
          rw [if_neg hk]
          exact ih hg

end Handlers

end Pyroflow
