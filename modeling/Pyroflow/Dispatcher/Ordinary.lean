import Pyroflow.Dispatcher.Propagation

/-!
# Ordinary handlers

With ordinary handlers (`HandlerRun.Ordinary`), whose callbacks do not raise
`UnhandledUpdate` and where no task is cancelled, a handler leaves its group if its
check passes and its callback does not raise `ContinuePropagation`, and nothing but
`StopPropagation` ends the propagation (`groupExit_eq_stop`). Some callback is then
invoked if and only if some check passes (`invoked_ne_nil_iff`).
-/

namespace Pyroflow.Dispatcher

variable {H : Type}

/-! ### Handlers -/

namespace HandlerRun

/-- The check passes: the handler runs if it has a turn. -/
def passes (h : HandlerRun H) : Bool := h.invocation.isSome

/-- What is assumed of a handler: its callback does not raise `UnhandledUpdate`, no task
    is cancelled, and `handle_update_handler_exception` does not raise. -/
structure Ordinary (h : HandlerRun H) : Prop where
  check : h.check ≠ .error .cancelledError
  callback : h.callback ≠ .error .unhandledUpdate ∧ h.callback ≠ .error .cancelledError
  onException : h.onException = .ok ()

variable {h : HandlerRun H}

/-- A check that is not cancelled tells whether the handler runs. -/
theorem Ordinary.args_cases (ho : h.Ordinary) :
    h.args = .ok none ∨ ∃ args, h.args = .ok (some args) := by
  have hchecked (args : Args) : h.checked args = .ok none ∨ h.checked args = .ok (some args) := by
    rw [checked]
    split
    · exact .inr rfl
    · exact .inl rfl
    · next exc hexc =>
      refine .inl (if_pos (decide_eq_true ?_))
      rintro rfl
      exact ho.check hexc
  -- Error handlers and those of another type do not run; for the others, the check tells.
  rw [HandlerRun.args]
  split
  · exact .inl rfl
  · exact .inl rfl
  · exact (hchecked .parsed).imp_right fun h => ⟨_, h⟩
  · exact (hchecked .raw).imp_right fun h => ⟨_, h⟩

/-- A handler leaves its group if it runs, unless it raises `ContinuePropagation`. -/
theorem Ordinary.leaves_iff (ho : h.Ordinary) :
    h.leaves = true ↔ h.passes = true ∧ h.callback ≠ .error .continuePropagation := by
  rw [leaves, passes, invocation]
  rcases ho.args_cases with hargs | ⟨args, hargs⟩
  · simp only [hargs]
    exact iff_of_false Bool.false_ne_true fun h => Bool.false_ne_true h.1
  · simp only [hargs]
    rcases h.callback with (_ | _ | _ | _ | _) | _ <;> simp

/-- A handler that leaves its group returns, raises an exception that is counted, or stops
    the propagation. -/
theorem Ordinary.leaves_cases (ho : h.Ordinary) (hl : h.leaves = true) :
    h.exit = none ∧ (h.returns = true ∨ h.fails = true) ∨ h.exit = some .stopPropagation := by
  rw [exit, returns, fails]
  rw [leaves] at hl
  rcases ho.args_cases with hargs | ⟨args, hargs⟩
  · simp only [hargs] at hl
    exact absurd hl Bool.false_ne_true
  · have hcallback := ho.callback
    simp only [hargs, ho.onException] at hl ⊢
    rcases hcb : h.callback with (_ | _ | _ | _ | _) | _ <;> simp_all

/-- A handler that returns, or raises an exception that is counted, leaves its group. -/
theorem leaves_of_counted (hc : h.returns = true ∨ h.fails = true) : h.leaves = true := by
  rcases hc with hr | hf
  · exact leaves_of_returns hr
  · rw [fails] at hf
    rw [leaves]
    split at hf <;> simp_all

end HandlerRun

/-! ### Updates -/

variable {groups : List (List (HandlerRun H))} {history : Option HistoryRun}

/-- All handlers are ordinary. -/
def Ordinary (groups : List (List (HandlerRun H))) : Prop :=
  ∀ group ∈ groups, ∀ h ∈ group, h.Ordinary

/-- Some handler meets the condition. -/
def SomeHandler (groups : List (List (HandlerRun H))) (p : HandlerRun H → Prop) : Prop :=
  ∃ group ∈ groups, ∃ h ∈ group, p h

/-- A turn meets a condition that all handlers leaving their group meet, if some handler
    does. -/
theorem exists_mem_turns_iff (ho : Ordinary groups) {p : HandlerRun H → Prop}
    (hp : ∀ h : HandlerRun H, h.Ordinary → h.leaves = true → p h) :
    (∃ h ∈ turns groups, p h) ↔ SomeHandler groups p := by
  -- In a group, the handler the turns end with meets the condition, if any does.
  have hgroup : ∀ group ∈ groups,
      ((∃ h ∈ group.upTo HandlerRun.leaves, p h) ↔ ∃ h ∈ group, p h) :=
    fun group hg => List.exists_mem_upTo_iff fun h hh => hp h (ho group hg h hh)
  -- So does one in a group that raises, which is the last one with turns.
  have hraises : ∀ group ∈ groups, groupRaises group = true → ∃ h ∈ group, p h := by
    intro group hg hr
    rw [groupRaises, groupExit, Option.isSome_bind, Option.any_eq_true] at hr
    obtain ⟨h, hfind, _⟩ := hr
    have hmem := List.mem_of_find?_eq_some hfind
    exact ⟨h, hmem, hp h (ho group hg h hmem) (List.find?_some hfind)⟩
  rw [SomeHandler, ← List.exists_mem_upTo_iff hraises]
  simp only [turns, List.mem_flatMap]
  constructor
  · rintro ⟨h, ⟨group, hg, hh⟩, hph⟩
    exact ⟨group, hg, (hgroup group (List.upTo_subset hg)).1 ⟨h, hh, hph⟩⟩
  · rintro ⟨group, hg, hgh⟩
    obtain ⟨h, hh, hph⟩ := (hgroup group (List.upTo_subset hg)).2 hgh
    exact ⟨h, ⟨group, hg, hh⟩, hph⟩

/-- With ordinary handlers, a group raises `StopPropagation` only. -/
theorem groupExit_eq_stop (ho : Ordinary groups) {group : List (HandlerRun H)}
    (hg : group ∈ groups) {exc : Raised} (he : groupExit group = some exc) :
    exc = .stopPropagation := by
  obtain ⟨h, hfind, hexit⟩ := Option.bind_eq_some_iff.1 he
  have hmem := List.mem_of_find?_eq_some hfind
  rcases (ho group hg h hmem).leaves_cases (List.find?_some hfind) with ⟨hnone, _⟩ | hstop
  · exact absurd (hexit.symm.trans hnone) (Option.some_ne_none _)
  · exact Option.some_inj.1 (hexit.symm.trans hstop)

/-- What is assumed of a history: its hooks are not cancelled. -/
structure HistoryRun.Ordinary (h : HistoryRun) : Prop where
  isRecordable : h.isRecordable ≠ .error .cancelledError
  recordMany : h.recordMany ≠ .error .cancelledError

theorem exists_initialRecords (hh : ∀ h ∈ history, h.Ordinary) :
    ∃ records, initialRecords (H := H) history = .ok records := by
  cases history with
  | none => exact ⟨_, rfl⟩
  | some history =>
    have := (hh history rfl).isRecordable
    simp only [initialRecords]
    split
    · exact ⟨_, rfl⟩
    · exact ⟨_, rfl⟩
    · next exc hexc =>
      refine ⟨none, if_pos (decide_eq_true ?_)⟩
      rintro rfl
      exact this hexc

/-- A callback is invoked if and only if some check passes. -/
theorem invoked_ne_nil_iff (ho : Ordinary groups) (hh : ∀ h ∈ history, h.Ordinary) :
    (handleUpdate (.ok ()) history groups).invoked ≠ [] ↔
      SomeHandler groups fun h => h.passes = true := by
  obtain ⟨records, hi⟩ := exists_initialRecords (H := H) hh
  rw [← exists_mem_turns_iff ho fun h ho hl => (ho.leaves_iff.1 hl).1, handleUpdate,
    invoked_handleGroups hi, ne_eq, List.filterMap_eq_nil_iff]
  simp [HandlerRun.passes, Option.isSome_iff_ne_none]

end Pyroflow.Dispatcher
