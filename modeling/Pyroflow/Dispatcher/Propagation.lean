import Pyroflow.Dispatcher
import Pyroflow.Lib.UpTo

/-!
# How far an update gets

The loops of `_handle_update`, in terms of the handlers that have a turn
(`turns`): in each group, those up to the first one whose turn leaves the group,
and of the groups, those up to the first one whose turn raises
(`runGroups_eq`). What the loops keep count of is told by the turns: the
callbacks invoked, those that returned, and those that raised.

The history gets the handlers whose callbacks returned, unless the propagation
was stopped after one had (`recorded_eq_iff`).
-/

namespace Pyroflow.Dispatcher

variable {H : Type}

/-! ### Turns -/

namespace HandlerRun

variable (h : HandlerRun H)

/-- What the turn of a handler raises. -/
def exit : Option Raised :=
  match h.args with
  | .error exc => some exc
  | .ok none => none
  | .ok (some _) =>
    match h.callback with
    | .ok () | .error .continuePropagation => none
    | .error .exception =>
      match h.onException with
      | .ok () => none
      | .error exc => some exc
    | .error exc => some exc

/-- The turn of a handler is the last one of its group. -/
def leaves : Bool :=
  match h.args, h.callback with
  | .ok none, _ | .ok (some _), .error .continuePropagation => false
  | _, _ => true

/-- The callback is invoked, with these arguments. -/
def invocation : Option (H × Args) :=
  match h.args with
  | .ok (some args) => some (h.handler, args)
  | _ => none

/-- The callback is invoked, and returns. -/
def returns : Bool :=
  match h.args, h.callback with
  | .ok (some _), .ok () => true
  | _, _ => false

/-- The callback is invoked, and raises an exception that is counted. -/
def fails : Bool :=
  match h.args, h.callback with
  | .ok (some _), .error .exception => true
  | _, _ => false

end HandlerRun

/-- The loop variables after the turn of a handler. -/
def Progress.add (p : Progress H) (h : HandlerRun H) : Progress H := (h.run p).1

/-- The loop variables after the turns of some handlers. -/
def Progress.addAll (p : Progress H) (l : List (HandlerRun H)) : Progress H := l.foldl .add p

/-- What a group raises: the handler whose turn leaves it tells. -/
def groupExit (group : List (HandlerRun H)) : Option Raised :=
  (group.find? HandlerRun.leaves).bind HandlerRun.exit

/-- The propagation ends in a group. -/
def groupRaises (group : List (HandlerRun H)) : Bool := (groupExit group).isSome

/-- A group has a handler whose callback runs and returns. -/
def groupReturns (group : List (HandlerRun H)) : Bool :=
  (group.find? HandlerRun.leaves).any HandlerRun.returns

/-- The handlers that have a turn. -/
def turns (groups : List (List (HandlerRun H))) : List (HandlerRun H) :=
  (groups.upTo groupRaises).flatMap (List.upTo HandlerRun.leaves)

section Turns

variable {h : HandlerRun H} {p : Progress H} {group l : List (HandlerRun H)}
  {groups : List (List (HandlerRun H))}

/-- A turn that raises leaves the group. -/
theorem HandlerRun.exit_of_not_leaves (hl : h.leaves = false) : h.exit = none := by
  rw [HandlerRun.leaves] at hl
  rw [HandlerRun.exit]
  split at hl <;> simp_all

/-- A turn raises, leaves the group, or goes on to the next handler. -/
theorem HandlerRun.run_eq : h.run p = (p.add h,
    match h.exit, h.leaves with
    | some exc, _ => .raise exc
    | none, true => .leave
    | none, false => .next) := by
  -- The loop variables agree by definition; how the turn ends, the check and the callback tell.
  refine Prod.ext rfl ?_
  simp only [HandlerRun.run, HandlerRun.invoke, HandlerRun.exit, HandlerRun.leaves]
  rcases h.args with exc | _ | args
  · rfl
  · rfl
  · rcases h.callback with (_ | _ | _ | _ | _) | _
    case error.exception => rcases h.onException with exc | _ <;> rfl
    all_goals rfl

theorem Progress.invoked_add : (p.add h).invoked = p.invoked ++ h.invocation.toList := by
  simp only [Progress.add, HandlerRun.run, HandlerRun.invoke, HandlerRun.invocation]
  rcases h.args with exc | _ | args
  · exact (List.append_nil _).symm
  · exact (List.append_nil _).symm
  · rcases h.callback with (_ | _ | _ | _ | _) | _ <;> rfl

theorem Progress.handledCount_add :
    (p.add h).handledCount = p.handledCount + h.returns.toNat := by
  simp only [Progress.add, HandlerRun.run, HandlerRun.invoke, HandlerRun.returns]
  rcases h.args with exc | _ | args
  · rfl
  · rfl
  · rcases h.callback with (_ | _ | _ | _ | _) | _ <;> rfl

theorem Progress.excCount_add : (p.add h).excCount = p.excCount + h.fails.toNat := by
  simp only [Progress.add, HandlerRun.run, HandlerRun.invoke, HandlerRun.fails]
  rcases h.args with exc | _ | args
  · rfl
  · rfl
  · rcases h.callback with (_ | _ | _ | _ | _) | _ <;> rfl

theorem Progress.records_add :
    (p.add h).records = p.records.map (· ++ (bif h.returns then [h.handler] else [])) := by
  simp only [Progress.add, HandlerRun.run, HandlerRun.invoke, HandlerRun.returns]
  rcases h.args with exc | _ | args
  · simp
  · simp
  · rcases h.callback with (_ | _ | _ | _ | _) | _ <;> simp

/-- A callback that returns ends the turns of its group. -/
theorem HandlerRun.leaves_of_returns (hr : h.returns = true) : h.leaves = true := by
  rw [HandlerRun.returns] at hr
  rw [HandlerRun.leaves]
  split at hr <;> simp_all

/-- A callback that returns raises nothing. -/
theorem HandlerRun.exit_of_returns (hr : h.returns = true) : h.exit = none := by
  rw [HandlerRun.returns] at hr
  rw [HandlerRun.exit]
  split at hr <;> simp_all

@[simp] theorem Progress.addAll_nil : p.addAll [] = p := rfl

@[simp] theorem Progress.addAll_cons : p.addAll (h :: l) = (p.add h).addAll l := rfl

theorem Progress.addAll_append {l l' : List (HandlerRun H)} :
    p.addAll (l ++ l') = (p.addAll l).addAll l' := List.foldl_append

theorem Progress.invoked_addAll :
    (p.addAll l).invoked = p.invoked ++ l.filterMap HandlerRun.invocation := by
  induction l generalizing p with
  | nil => exact (List.append_nil _).symm
  | cons h l ih =>
    rw [Progress.addAll_cons, ih, Progress.invoked_add, List.append_assoc]
    cases hi : h.invocation <;> simp [hi]

theorem Progress.handledCount_addAll :
    (p.addAll l).handledCount = p.handledCount + l.countP HandlerRun.returns := by
  induction l generalizing p with
  | nil => rfl
  | cons h l ih =>
    rw [Progress.addAll_cons, ih, Progress.handledCount_add]
    cases hr : h.returns <;> (simp [hr]; try omega)

theorem Progress.excCount_addAll :
    (p.addAll l).excCount = p.excCount + l.countP HandlerRun.fails := by
  induction l generalizing p with
  | nil => rfl
  | cons h l ih =>
    rw [Progress.addAll_cons, ih, Progress.excCount_add]
    cases hf : h.fails <;> (simp [hf]; try omega)

theorem Progress.records_addAll :
    (p.addAll l).records =
      p.records.map (· ++ (l.filter HandlerRun.returns).map HandlerRun.handler) := by
  induction l generalizing p with
  | nil => simp
  | cons h l ih =>
    rw [Progress.addAll_cons, ih, Progress.records_add, Option.map_map]
    congr 1
    funext records
    cases hr : h.returns <;> simp [hr]

/-! ### The loops -/

/-- The loop on a group is left by the first turn that does not go on to the next
    handler. -/
theorem runGroup_eq :
    runGroup group p = (p.addAll (group.upTo HandlerRun.leaves), groupExit group) := by
  induction group generalizing p with
  | nil => rfl
  | cons h group ih =>
    rw [runGroup, HandlerRun.run_eq]
    -- The first handler leaves the group, or the next one has its turn.
    cases hl : h.leaves with
    | true =>
      rw [List.upTo_cons_of_pos hl, groupExit, List.find?_cons_of_pos hl, Option.bind_some]
      cases h.exit <;> rfl
    | false =>
      rw [List.upTo_cons_of_neg hl, groupExit, List.find?_cons_of_neg (by simp [hl]),
        HandlerRun.exit_of_not_leaves hl]
      exact ih

theorem turns_cons_of_raises (h : groupRaises group = true) :
    turns (group :: groups) = group.upTo HandlerRun.leaves := by
  rw [turns, List.upTo_cons_of_pos h, List.flatMap_singleton]

theorem turns_cons_of_not_raises (h : groupRaises group = false) :
    turns (group :: groups) = group.upTo HandlerRun.leaves ++ turns groups := by
  rw [turns, List.upTo_cons_of_neg h, List.flatMap_cons, turns]

/-- The loop on the groups takes the turns, and raises what the first group that raises
    does. -/
theorem runGroups_eq :
    runGroups groups p = (p.addAll (turns groups), groups.findSome? groupExit) := by
  induction groups generalizing p with
  | nil => rfl
  | cons group groups ih =>
    rw [runGroups, runGroup_eq, List.findSome?_cons]
    -- The group raises, and there are no turns after it, or the loop goes on to the others.
    cases h : groupExit group with
    | some exc => rw [turns_cons_of_raises (by simp [groupRaises, h])]
    | none => rw [turns_cons_of_not_raises (by simp [groupRaises, h]), Progress.addAll_append, ← ih]

/-- A group has a turn where the callback returns if and only if the turn that leaves it
    is one. -/
theorem exists_returns_iff :
    (∃ h ∈ group.upTo HandlerRun.leaves, h.returns = true) ↔ groupReturns group = true := by
  rw [groupReturns, Option.any_eq_true]
  constructor
  · rintro ⟨h, hmem, hr⟩
    exact ⟨h, List.find?_eq_some_of_mem_upTo hmem (HandlerRun.leaves_of_returns hr), hr⟩
  · rintro ⟨h, hmem, hr⟩
    rw [List.upTo_eq_takeWhile]
    exact ⟨h, List.mem_append_right _ (Option.mem_toList.2 hmem), hr⟩

/-- A group where a callback returns does not end the propagation. -/
theorem not_raises_of_returns (h : groupReturns group = true) : groupRaises group = false := by
  obtain ⟨run, hfind, hr⟩ := (Option.any_eq_true _ _).1 h
  simp [groupRaises, groupExit, hfind, HandlerRun.exit_of_returns hr]

/-- A callback returns in some turn if and only if one does in a group before the one
    where the propagation ends. -/
theorem exists_returns_turns_iff :
    (∃ h ∈ turns groups, h.returns = true) ↔
      ∃ group ∈ groups.takeWhile (! groupRaises ·), groupReturns group = true := by
  have hgroup : (∃ h ∈ turns groups, h.returns = true) ↔
      ∃ group ∈ groups.upTo groupRaises, groupReturns group = true := by
    simp only [turns, List.mem_flatMap, ← exists_returns_iff]
    exact ⟨fun ⟨h, ⟨group, hg, hh⟩, hr⟩ => ⟨group, hg, h, hh, hr⟩,
      fun ⟨group, hg, h, hh, hr⟩ => ⟨h, ⟨group, hg, hh⟩, hr⟩⟩
  rw [hgroup, List.upTo_eq_takeWhile]
  constructor
  · rintro ⟨group, hmem, hr⟩
    rcases List.mem_append.1 hmem with hmem | hmem
    · exact ⟨group, hmem, hr⟩
    · -- The group where the propagation ends has none.
      have := List.find?_some (Option.mem_toList.1 hmem)
      simp [not_raises_of_returns hr] at this
  · rintro ⟨group, hmem, hr⟩
    exact ⟨group, List.mem_append_left _ hmem, hr⟩

/-! ### The history -/

/-- The history gets the whole list. -/
theorem recorded_record {history : HistoryRun} {records : List H}
    (h : p.records = some records) : (record (some history) p).recorded = records := by
  simp only [record, h]
  cases records <;> rfl

theorem invoked_record {history : Option HistoryRun} :
    (record history p).invoked = p.invoked := by
  simp only [record]
  split <;> rfl

theorem result_record {history : Option HistoryRun}
    (hm : ∀ h ∈ history, h.recordMany ≠ .error .cancelledError) :
    (record history p).result = .ok (p.handledCount, p.excCount) := by
  simp only [record]
  split
  · next history _ _ _ =>
    have := hm history rfl
    split <;> simp_all
  · rfl

/-- Of an update that is recordable, the history gets the handlers whose callbacks
    returned, unless the propagation ends in a group. -/
theorem recorded_handleGroups {history : HistoryRun} (hi : history.isRecordable = .ok true) :
    (handleGroups (some history) groups).recorded =
      if (groups.findSome? groupExit).isSome then []
      else ((turns groups).filter HandlerRun.returns).map HandlerRun.handler := by
  simp only [handleGroups, initialRecords, hi, runGroups_eq]
  cases groups.findSome? groupExit with
  | some exc => rfl
  | none => exact recorded_record Progress.records_addAll

/-- What is invoked is told by the turns. -/
theorem invoked_handleGroups {history : Option HistoryRun} {records : Option (List H)}
    (hi : initialRecords history = .ok records) :
    (handleGroups history groups).invoked =
      (turns groups).filterMap HandlerRun.invocation := by
  simp only [handleGroups, hi, runGroups_eq]
  cases groups.findSome? groupExit with
  | some exc => exact Progress.invoked_addAll
  | none => exact invoked_record.trans Progress.invoked_addAll

/-- What the update ends with: what the first group that raises does, or the numbers of
    callbacks that returned and that raised. -/
theorem result_handleGroups {history : Option HistoryRun} {records : Option (List H)}
    (hi : initialRecords history = .ok records)
    (hm : ∀ h ∈ history, h.recordMany ≠ .error .cancelledError) :
    (handleGroups history groups).result =
      match groups.findSome? groupExit with
      | some exc => .error exc
      | none => .ok ((turns groups).countP HandlerRun.returns,
          (turns groups).countP HandlerRun.fails) := by
  simp only [handleGroups, hi, runGroups_eq]
  cases groups.findSome? groupExit with
  | some exc => rfl
  | none =>
    simp only
    rw [result_record hm, Progress.handledCount_addAll, Progress.excCount_addAll,
      Nat.zero_add, Nat.zero_add]

/-- No callback returns if and only if none does in a group before the one where the
    propagation ends. -/
theorem filter_returns_turns_eq_nil_iff :
    ((turns groups).filter HandlerRun.returns).map HandlerRun.handler = [] ↔
      ∀ group ∈ groups.takeWhile (! groupRaises ·), groupReturns group = false := by
  -- The negation of `exists_returns_turns_iff`.
  have hturns := not_congr (@exists_returns_turns_iff _ groups)
  simp only [not_exists, not_and, Bool.not_eq_true] at hturns
  rw [List.map_eq_nil_iff, List.filter_eq_nil_iff, ← hturns]
  simp only [Bool.not_eq_true]

/-- Of an update that is recordable, the handlers recorded are those whose callbacks
    returned, in the order of their turns, if and only if none had returned when a handler
    stops the propagation, if one does. -/
theorem recorded_eq_iff (history : HistoryRun) (groups : List (List (HandlerRun H)))
    (hi : history.isRecordable = .ok true) (hm : history.recordMany = .ok ())
    (hend : (∃ counts, (handleUpdate (.ok ()) (some history) groups).result = .ok counts) ∨
      (handleUpdate (.ok ()) (some history) groups).result = .error .stopPropagation) :
    (handleUpdate (.ok ()) (some history) groups).invoked =
        (turns groups).filterMap HandlerRun.invocation ∧
    ((handleUpdate (.ok ()) (some history) groups).recorded =
        ((turns groups).filter HandlerRun.returns).map HandlerRun.handler ↔
      ((∃ group ∈ groups, groupExit group = some .stopPropagation) →
        ∀ group ∈ groups.takeWhile (! groupRaises ·), groupReturns group = false)) := by
  have hinit : initialRecords (H := H) (some history) = .ok (some []) := by
    simp only [initialRecords, hi]
  refine ⟨invoked_handleGroups hinit, ?_⟩
  rw [← filter_returns_turns_eq_nil_iff]
  simp only [handleUpdate] at hend ⊢
  rw [recorded_handleGroups hi]
  rw [result_handleGroups hinit (by rintro h ⟨⟩; simp [hm])] at hend
  -- Without a group that raises, everything is recorded, and none stops the propagation.
  cases hexit : groups.findSome? groupExit with
  | none =>
    have hnone := List.findSome?_eq_none_iff.1 hexit
    refine iff_of_true rfl fun ⟨group, hmem, hg⟩ => ?_
    exact absurd (hg.symm.trans (hnone group hmem)) (Option.some_ne_none _)
  | some exc =>
    obtain rfl : exc = .stopPropagation := by
      rw [hexit] at hend
      rcases hend with ⟨_, hend⟩ | hend <;> cases hend
      rfl
    -- Nothing is recorded then, which is right if no callback had returned.
    have hstop := List.exists_of_findSome?_eq_some hexit
    simp only [Option.isSome_some, if_true]
    exact ⟨fun h _ => h.symm, fun h => (h hstop).symm⟩

end Turns

/-- A handler whose check passes, with a callback that ends so. -/
def passing (handler : ℕ) (callback : Except Raised Unit) : HandlerRun ℕ :=
  ⟨handler, .typed, .ok true, callback, .ok ()⟩

/-- A handler that returns, and one of the next group that raises an exception: the first
    one is recorded. -/
theorem recorded_eq_iff_exception :
    (handleUpdate (.ok ()) (some ⟨.ok true, .ok ()⟩)
      [[passing 1 (.ok ())], [passing 2 (.error .exception)]]).recorded = [1] :=
  (recorded_eq_iff ⟨.ok true, .ok ()⟩ [[passing 1 (.ok ())], [passing 2 (.error .exception)]]
    rfl rfl (.inl ⟨(1, 1), by decide⟩)).2.2 (by decide)

/-- A handler that returns, and one of the next group that stops the propagation: both
    callbacks are invoked, and nothing is recorded. -/
theorem recorded_of_stop :
    (handleUpdate (.ok ()) (some ⟨.ok true, .ok ()⟩)
        [[passing 1 (.ok ())], [passing 2 (.error .stopPropagation)]]).result =
      .error .stopPropagation ∧
    (handleUpdate (.ok ()) (some ⟨.ok true, .ok ()⟩)
        [[passing 1 (.ok ())], [passing 2 (.error .stopPropagation)]]).invoked =
      [(1, .parsed), (2, .parsed)] ∧
    (handleUpdate (.ok ()) (some ⟨.ok true, .ok ()⟩)
        [[passing 1 (.ok ())], [passing 2 (.error .stopPropagation)]]).recorded ≠
      ((turns [[passing 1 (.ok ())], [passing 2 (.error .stopPropagation)]]).filter
        HandlerRun.returns).map HandlerRun.handler := by
  decide

end Pyroflow.Dispatcher
