import Mathlib.Data.List.Induction
import Mathlib.Data.List.Nodup
import Pyroflow.Commands

/-!
# Live commands

What `push_bot_commands` sends after any calls of `_collect_bot_commands`,
`_discard_bot_commands` and `_prune_bot_commands` (`GroupsCall`), whatever is registered then:
one call for each language and scope, with the commands collected that some registered
handler declares (`Declares`), each of them once.

The groups are edited in place, found by their key. As a group is added only where there is
none with its key, the keys stay distinct (`nodup_collectedGroups`). Pruning goes through the
groups by index, from the last to the first (`pruneLoop`), so that a group taken out does not
move those still to come.
-/

namespace Pyroflow

variable {Scope BotCommand Handler : Type} [DecidableEq Scope] [DecidableEq BotCommand]

/-! ### The loop of `_prune_bot_commands` -/

/-- The loop of `_prune_bot_commands` over the groups before an index, from the last to the
    first: a group keeps the commands that are declared, and goes if none is left. -/
def pruneLoop (declared : BotCommandGroups Scope BotCommand) :
    ℕ → BotCommandGroups Scope BotCommand → BotCommandGroups Scope BotCommand
  | 0, groups => groups
  | i + 1, groups =>
    match groups[i]? with
    | none => pruneLoop declared i groups
    | some (key, commands) =>
      let commands := commands.filter (· ∈ botCommandsOf declared key)
      pruneLoop declared i
        (if commands.isEmpty then groups.eraseIdx i else groups.set i (key, commands))

/-- What the loop leaves of a group. -/
def pruneGroup (declared : BotCommandGroups Scope BotCommand) :
    BotCommandGroupKey Scope × List BotCommand →
      Option (BotCommandGroupKey Scope × List BotCommand) := fun (key, commands) =>
  let commands := commands.filter (· ∈ botCommandsOf declared key)
  if commands.isEmpty then none else some (key, commands)

/-- The groups before the index are pruned, and those from it on are kept. -/
theorem pruneLoop_append (declared groups done : BotCommandGroups Scope BotCommand) :
    pruneLoop declared groups.length (groups ++ done) =
      groups.filterMap (pruneGroup declared) ++ done := by
  -- By induction on the groups, as the loop goes: the last one first.
  induction groups using List.reverseRecOn generalizing done with
  | nil => rfl
  | append_singleton groups g ih =>
    obtain ⟨key, commands⟩ := g
    have hget : (groups ++ [(key, commands)] ++ done)[groups.length]? = some (key, commands) := by
      simp
    rw [List.length_append, List.length_singleton, pruneLoop, hget, List.filterMap_append,
      List.append_assoc, List.append_assoc]
    have hsome : List.filterMap (pruneGroup declared) [(key, commands)] =
        (pruneGroup declared (key, commands)).toList := by
      rw [List.filterMap_cons]
      cases pruneGroup declared (key, commands) <;> rfl
    rw [hsome, pruneGroup]
    dsimp only
    split
    case isTrue =>
      rw [List.eraseIdx_append_of_length_le le_rfl, Nat.sub_self]
      exact ih done
    case isFalse =>
      rw [List.set_append_right _ _ le_rfl, Nat.sub_self]
      exact ih _

variable {marks : Handler → List (BotCommandEntry Scope BotCommand)}
  {registered : List (ℤ × Handler)} {groups : BotCommandGroups Scope BotCommand}

/-- `_prune_bot_commands` is this loop, over all groups if anything is declared. -/
theorem pruneBotCommands_eq_pruneLoop : pruneBotCommands marks registered groups =
    if (declaredBotCommands marks registered).isEmpty then []
    else pruneLoop (declaredBotCommands marks registered) groups.length groups := by
  have hloop := pruneLoop_append (declaredBotCommands marks registered) groups []
  rw [List.append_nil, List.append_nil] at hloop
  rw [hloop]
  rfl

/-! ### What pruning keeps -/

variable (marks registered) in
/-- Some registered handler declares the command for the language and the scope. -/
def Declares (key : BotCommandGroupKey Scope) (command : BotCommand) : Prop :=
  ∃ h ∈ registered, ∃ entry ∈ marks h.2,
    (splitBotCommandEntry entry).1 = key ∧ command ∈ (splitBotCommandEntry entry).2

instance (key : BotCommandGroupKey Scope) (command : BotCommand) :
    Decidable (Declares marks registered key command) :=
  inferInstanceAs (Decidable (∃ h ∈ registered, ∃ entry ∈ marks h.2,
    (splitBotCommandEntry entry).1 = key ∧ command ∈ (splitBotCommandEntry entry).2))

variable {key : BotCommandGroupKey Scope} {command : BotCommand}

/-- A handler declares a command if one of its entries does. -/
theorem exists_of_declarations_pos {entries : List (BotCommandEntry Scope BotCommand)}
    (h : 0 < declarations key command entries) : ∃ entry ∈ entries,
      (splitBotCommandEntry entry).1 = key ∧ command ∈ (splitBotCommandEntry entry).2 := by
  obtain ⟨_, hmem, hpos⟩ := List.sum_pos_iff_exists_pos_nat.1 h
  obtain ⟨entry, hentry, rfl⟩ := List.mem_map.1 hmem
  split at hpos
  case isTrue hkey => exact ⟨entry, hentry, hkey, List.count_pos_iff.1 hpos⟩
  case isFalse => exact absurd hpos (lt_irrefl 0)

/-- The list of `_prune_bot_commands` has what the handlers declare. -/
theorem mem_declaredBotCommands_iff :
    command ∈ botCommandsOf (declaredBotCommands marks registered) key ↔
      Declares marks registered key command := by
  constructor
  · intro h
    rw [← List.count_pos_iff, count_declaredBotCommands, List.sum_pos_iff_exists_pos_nat] at h
    obtain ⟨_, hmem, hpos⟩ := h
    obtain ⟨h, hreg, rfl⟩ := List.mem_map.1 hmem
    exact ⟨h, hreg, exists_of_declarations_pos hpos⟩
  · rintro ⟨h, hreg, entry, hentry, rfl, hc⟩
    exact mem_declaredBotCommands hreg hentry hc

omit [DecidableEq Scope] [DecidableEq BotCommand] in
/-- Groups are changed, and those then empty are left out. -/
theorem filterMap_groups (f : BotCommandGroupKey Scope × List BotCommand → List BotCommand) :
    (groups.filterMap fun g => if (f g).isEmpty then none else some (g.1, f g)) =
      (groups.map fun g => (g.1, f g)).filter fun g => g.2 ≠ [] := by
  induction groups with
  | nil => rfl
  | cons g groups ih =>
    rw [List.filterMap_cons, List.map_cons, List.filter_cons, ← ih]
    by_cases h : f g = []
    · simp [h]
    · simp [h]

/-- The groups keep their order and the commands that are declared; those left with none go. -/
theorem pruneBotCommands_eq : pruneBotCommands marks registered groups =
    (groups.map fun g => (g.1, g.2.filter fun command =>
      Declares marks registered g.1 command)).filter fun g => g.2 ≠ [] := by
  have hlive : ∀ g : BotCommandGroupKey Scope × List BotCommand,
      (g.2.filter fun command => decide (Declares marks registered g.1 command)) =
        g.2.filter (· ∈ botCommandsOf (declaredBotCommands marks registered) g.1) :=
    fun g => List.filter_congr fun command _ => decide_eq_decide.2 mem_declaredBotCommands_iff.symm
  simp only [hlive]
  rw [pruneBotCommands]
  dsimp only
  split
  case isTrue h =>
    rw [List.isEmpty_iff.1 h]
    simp [botCommandsOf]
  case isFalse => exact filterMap_groups _

/-! ### What is sent -/

variable {commands : List BotCommand}

/-- The loop of `push_bot_commands`, at one more command. -/
theorem uniqueBotCommands_append_singleton :
    uniqueBotCommands (commands ++ [command]) =
      if command ∈ uniqueBotCommands commands then uniqueBotCommands commands
      else uniqueBotCommands commands ++ [command] := by
  rw [uniqueBotCommands, List.foldl_append]
  rfl

theorem mem_uniqueBotCommands : command ∈ uniqueBotCommands commands ↔ command ∈ commands := by
  induction commands using List.reverseRecOn with
  | nil => rfl
  | append_singleton commands c ih =>
    rw [uniqueBotCommands_append_singleton, List.mem_append, List.mem_singleton, ← ih]
    split
    case isTrue h => exact ⟨.inl, fun hc => hc.elim id fun heq => heq ▸ h⟩
    case isFalse => rw [List.mem_append, List.mem_singleton]

theorem nodup_uniqueBotCommands : (uniqueBotCommands commands).Nodup := by
  induction commands using List.reverseRecOn with
  | nil => exact List.nodup_nil
  | append_singleton commands c ih =>
    rw [uniqueBotCommands_append_singleton]
    split
    case isTrue => exact ih
    case isFalse h =>
      exact ih.append (List.nodup_singleton c) (List.disjoint_singleton.2 h)

/-- The commands are in the order of their first occurrences. -/
theorem pairwise_uniqueBotCommands :
    (uniqueBotCommands commands).Pairwise fun c c' => commands.idxOf c < commands.idxOf c' := by
  induction commands using List.reverseRecOn with
  | nil => exact .nil
  | append_singleton commands c ih =>
    have hidx : ∀ {c'}, c' ∈ uniqueBotCommands commands →
        (commands ++ [c]).idxOf c' = commands.idxOf c' :=
      fun h => List.idxOf_append_of_mem (mem_uniqueBotCommands.1 h)
    have hold : (uniqueBotCommands commands).Pairwise fun c₁ c₂ =>
        (commands ++ [c]).idxOf c₁ < (commands ++ [c]).idxOf c₂ := by
      refine ih.imp_of_mem fun h₁ h₂ hlt => ?_
      rwa [hidx h₁, hidx h₂]
    rw [uniqueBotCommands_append_singleton]
    split
    case isTrue => exact hold
    case isFalse h =>
      -- A new command comes after all those before it.
      refine List.pairwise_append.2 ⟨hold, List.pairwise_singleton _ _, fun c₁ h₁ c₂ h₂ => ?_⟩
      obtain rfl := List.mem_singleton.1 h₂
      rw [mem_uniqueBotCommands] at h
      rw [hidx h₁, List.idxOf_append_of_notMem h]
      exact Nat.lt_add_right _ (List.idxOf_lt_length_of_mem (mem_uniqueBotCommands.1 h₁))

/-- Commands left out do not change the order of the others. -/
theorem uniqueBotCommands_filter (p : BotCommand → Bool) :
    uniqueBotCommands (commands.filter p) = (uniqueBotCommands commands).filter p := by
  induction commands using List.reverseRecOn with
  | nil => rfl
  | append_singleton commands c ih =>
    rw [List.filter_append, uniqueBotCommands_append_singleton]
    by_cases hp : p c
    · have hfilter : [c].filter p = [c] := List.filter_cons_of_pos hp
      rw [hfilter, uniqueBotCommands_append_singleton, ih]
      by_cases hc : c ∈ uniqueBotCommands commands
      · rw [if_pos hc, if_pos (List.mem_filter.2 ⟨hc, hp⟩)]
      · rw [if_neg hc, if_neg fun h => hc (List.mem_filter.1 h).1, List.filter_append, hfilter]
    · have hfilter : [c].filter p = [] := List.filter_cons_of_neg hp
      rw [hfilter, List.append_nil, ih]
      split
      · rfl
      · rw [List.filter_append, hfilter, List.append_nil]

variable (marks registered groups) in
/-- `push_bot_commands`: the calls of `set_bot_commands` it makes, after pruning. -/
def pushBotCommands : BotCommandGroups Scope BotCommand :=
  publishedBotCommands (pruneBotCommands marks registered groups)

/-- A call is made for each group that pruning leaves. -/
theorem pushBotCommands_eq : pushBotCommands marks registered groups =
    (pruneBotCommands marks registered groups).map fun g => (g.1, uniqueBotCommands g.2) := by
  rw [pushBotCommands, publishedBotCommands]
  refine (filterMap_groups fun g => uniqueBotCommands g.2).trans (List.filter_eq_self.2 ?_)
  intro call hcall
  obtain ⟨g, hg, rfl⟩ := List.mem_map.1 hcall
  rw [pruneBotCommands_eq] at hg
  have hne := of_decide_eq_true (List.mem_filter.1 hg).2
  obtain ⟨command, hcommand⟩ := List.exists_mem_of_ne_nil _ hne
  exact decide_eq_true (List.ne_nil_of_mem (mem_uniqueBotCommands.2 hcommand))

/-! ### Any calls -/

omit [DecidableEq BotCommand] in
/-- A group is found by its key. -/
theorem botCommandsOf_of_mem (hn : (groups.map Prod.fst).Nodup)
    {g : BotCommandGroupKey Scope × List BotCommand} (hg : g ∈ groups) :
    botCommandsOf groups g.1 = g.2 := by
  induction groups with
  | nil => cases hg
  | cons g' groups ih =>
    obtain ⟨hnew, hn⟩ := List.nodup_cons.1 hn
    rw [botCommandsOf_cons]
    rcases List.mem_cons.1 hg with rfl | hg
    · exact if_pos rfl
    · rw [if_neg fun heq => hnew (List.mem_map.2 ⟨g, hg, heq⟩), ih hn hg]

omit [DecidableEq BotCommand] in
/-- A group is added only if there is none with its key. -/
theorem nodup_collectBotCommands (h : (groups.map Prod.fst).Nodup) :
    ((collectBotCommands key commands groups).map Prod.fst).Nodup := by
  induction groups with
  | nil => exact List.nodup_singleton key
  | cons g groups ih =>
    obtain ⟨hnew, hn⟩ := List.nodup_cons.1 h
    rw [collectBotCommands]
    split
    case isTrue => exact h
    case isFalse hne =>
      refine List.nodup_cons.2 ⟨fun hmem => ?_, ih hn⟩
      rcases mem_keys_collectBotCommands.1 hmem with heq | hmem
      · exact hne heq
      · exact hnew hmem

/-- Discarding removes groups. -/
theorem keys_discardBotCommands :
    ((discardBotCommands key commands groups).map Prod.fst).Sublist (groups.map Prod.fst) := by
  induction groups with
  | nil => exact .refl _
  | cons g groups ih =>
    rw [discardBotCommands]
    split
    · split
      · exact List.sublist_cons_self _ _
      · exact .refl _
    · exact ih.cons_cons _

/-- Pruning removes groups. -/
theorem keys_pruneBotCommands :
    ((pruneBotCommands marks registered groups).map Prod.fst).Sublist (groups.map Prod.fst) := by
  rw [pruneBotCommands_eq]
  refine (List.filter_sublist.map Prod.fst).trans ?_
  rw [List.map_map]
  exact .refl _

/-- A call that changes the groups; a prune finds these handlers in `dispatcher.groups`. -/
inductive GroupsCall (Scope BotCommand Handler : Type)
  | collect (key : BotCommandGroupKey Scope) (commands : List BotCommand)
  | discard (key : BotCommandGroupKey Scope) (commands : List BotCommand)
  | prune (registered : List (ℤ × Handler))

variable (marks) in
/-- What a call does. -/
def GroupsCall.apply (groups : BotCommandGroups Scope BotCommand) :
    GroupsCall Scope BotCommand Handler → BotCommandGroups Scope BotCommand
  | .collect key commands => collectBotCommands key commands groups
  | .discard key commands => discardBotCommands key commands groups
  | .prune registered => pruneBotCommands marks registered groups

variable (marks) in
/-- The groups after these calls, from none. -/
def collectedGroups (calls : List (GroupsCall Scope BotCommand Handler)) :
    BotCommandGroups Scope BotCommand :=
  calls.foldl (GroupsCall.apply marks) []

/-- A call leaves the keys distinct. -/
theorem GroupsCall.nodup_apply (h : (groups.map Prod.fst).Nodup)
    (call : GroupsCall Scope BotCommand Handler) :
    ((call.apply marks groups).map Prod.fst).Nodup := by
  cases call with
  | collect key commands => exact nodup_collectBotCommands h
  | discard key commands => exact h.sublist keys_discardBotCommands
  | prune registered => exact h.sublist keys_pruneBotCommands

variable {calls : List (GroupsCall Scope BotCommand Handler)}

theorem nodup_collectedGroups : ((collectedGroups marks calls).map Prod.fst).Nodup := by
  induction calls using List.reverseRecOn with
  | nil => exact List.nodup_nil
  | append_singleton calls call ih =>
    rw [collectedGroups, List.foldl_append]
    exact call.nodup_apply ih

/-- A call of `set_bot_commands` for a group that is left: its live commands, each at its
    first place. -/
theorem mem_pushBotCommands (hn : (groups.map Prod.fst).Nodup)
    {call : BotCommandGroupKey Scope × List BotCommand}
    (h : call ∈ pushBotCommands marks registered groups) : call.2 ≠ [] ∧
      call.2 = (uniqueBotCommands (botCommandsOf groups call.1)).filter fun command =>
        Declares marks registered call.1 command := by
  rw [pushBotCommands_eq] at h
  obtain ⟨g, hg, rfl⟩ := List.mem_map.1 h
  rw [pruneBotCommands_eq] at hg
  obtain ⟨hg, hne⟩ := List.mem_filter.1 hg
  obtain ⟨g, hmem, rfl⟩ := List.mem_map.1 hg
  obtain ⟨command, hcommand⟩ := List.exists_mem_of_ne_nil _ (of_decide_eq_true hne)
  refine ⟨List.ne_nil_of_mem (mem_uniqueBotCommands.2 hcommand), ?_⟩
  rw [botCommandsOf_of_mem hn hmem]
  exact uniqueBotCommands_filter _

/-- After any calls the keys are distinct, a prune keeps the commands that are declared and
    the groups that have any, in their order, and a push makes one call for each of these:
    with the commands of the group that are declared, each once, in the order of their first
    occurrences. -/
theorem pushBotCommands_live (marks : Handler → List (BotCommandEntry Scope BotCommand))
    (calls : List (GroupsCall Scope BotCommand Handler)) (registered : List (ℤ × Handler)) :
    ((collectedGroups marks calls).map Prod.fst).Nodup ∧
    pruneBotCommands marks registered (collectedGroups marks calls) =
      ((collectedGroups marks calls).map fun g => (g.1, g.2.filter fun command =>
        Declares marks registered g.1 command)).filter (fun g => g.2 ≠ []) ∧
    (pushBotCommands marks registered (collectedGroups marks calls)).map Prod.fst =
      (pruneBotCommands marks registered (collectedGroups marks calls)).map Prod.fst ∧
    ((pushBotCommands marks registered (collectedGroups marks calls)).map Prod.fst).Nodup ∧
    ∀ call ∈ pushBotCommands marks registered (collectedGroups marks calls),
      call.2 ≠ [] ∧ call.2.Nodup ∧
      (∀ command, command ∈ call.2 ↔
        command ∈ botCommandsOf (collectedGroups marks calls) call.1 ∧
          Declares marks registered call.1 command) ∧
      call.2.Pairwise fun c c' => (botCommandsOf (collectedGroups marks calls) call.1).idxOf c <
        (botCommandsOf (collectedGroups marks calls) call.1).idxOf c' := by
  have hn : ((collectedGroups marks calls).map Prod.fst).Nodup := nodup_collectedGroups
  have hkeys : (pushBotCommands marks registered (collectedGroups marks calls)).map Prod.fst =
      (pruneBotCommands marks registered (collectedGroups marks calls)).map Prod.fst := by
    rw [pushBotCommands_eq, List.map_map]
    rfl
  refine ⟨hn, pruneBotCommands_eq, hkeys, ?_, fun call hcall => ?_⟩
  · rw [hkeys]
    exact hn.sublist keys_pruneBotCommands
  · obtain ⟨hne, heq⟩ := mem_pushBotCommands hn hcall
    refine ⟨hne, ?_, fun command => ?_, ?_⟩
    · rw [heq]
      exact nodup_uniqueBotCommands.filter _
    · rw [heq, List.mem_filter, mem_uniqueBotCommands, decide_eq_true_iff]
    · rw [heq]
      exact pairwise_uniqueBotCommands.filter _

end Pyroflow
