import Pyroflow.Dispatcher.Ordinary

/-!
# Which handlers run

What the loop on the groups is for, told without its exits: in each group, the handlers
that match the update run, up to the first one whose callback does not raise
`ContinuePropagation` (`groupInvoked`). The last of them decides what the group adds to the
counts.

`HandlerRun.Plain` is what is assumed of a handler: its callback returns, or raises
`ContinuePropagation` or an exception that is counted. Then no group ends the propagation,
and the turns of a group are those of the handlers that run, besides turns that do nothing
(`filterMap_invocation_upTo`). So the loops run exactly these handlers, and count the groups
by the last one (`runs_matching_handlers`).
-/

namespace Pyroflow.Dispatcher

variable {H : Type}

/-! ### Handlers that match -/

/-- The arguments for the callback of a handler of a kind that runs. -/
def HandlerKind.args : HandlerKind → Args
  | .raw => .raw
  | _ => .parsed

namespace HandlerRun

variable (h : HandlerRun H)

/-- The handler is for the update, or for raw updates, and its check returns `True`. -/
def isMatching : Bool :=
  match h.kind, h.check with
  | .typed, .ok true | .raw, .ok true => true
  | _, _ => false

/-- The callback does not raise `ContinuePropagation`. -/
def isFinal : Bool :=
  match h.callback with
  | .error .continuePropagation => false
  | _ => true

/-- The callback returns. -/
def succeeds : Bool :=
  match h.callback with
  | .ok () => true
  | _ => false

/-- The callback raises an ordinary exception. -/
def isFaulty : Bool :=
  match h.callback with
  | .error .exception => true
  | _ => false

/-- What is assumed of a handler: its callback returns, or raises `ContinuePropagation` or an
    ordinary exception, its check is not cancelled, and `handle_update_handler_exception`
    does not raise. -/
structure Plain : Prop where
  check : h.check ≠ .error .cancelledError
  callback : h.callback = .ok () ∨ h.callback = .error .continuePropagation ∨
    h.callback = .error .exception
  onException : h.onException = .ok ()

end HandlerRun

/-- The handlers of a group that run: those that match, up to the first one whose callback
    does not raise `ContinuePropagation`. -/
def groupInvoked (group : List (HandlerRun H)) : List (HandlerRun H) :=
  (group.filter HandlerRun.isMatching).upTo HandlerRun.isFinal

/-- The last handler of a group that runs meets the condition. -/
def lastInvoked (p : HandlerRun H → Bool) (group : List (HandlerRun H)) : Bool :=
  (groupInvoked group).getLast?.any p

variable {h : HandlerRun H} {group : List (HandlerRun H)} {groups : List (List (HandlerRun H))}

theorem groupInvoked_cons_of_not_matching (hm : h.isMatching = false) :
    groupInvoked (h :: group) = groupInvoked group := by
  rw [groupInvoked, List.filter_cons_of_neg (by simp [hm]), groupInvoked]

theorem groupInvoked_cons_of_final (hm : h.isMatching = true) (hf : h.isFinal = true) :
    groupInvoked (h :: group) = [h] := by
  rw [groupInvoked, List.filter_cons_of_pos hm, List.upTo_cons_of_pos hf]

theorem groupInvoked_cons_of_not_final (hm : h.isMatching = true) (hf : h.isFinal = false) :
    groupInvoked (h :: group) = h :: groupInvoked group := by
  rw [groupInvoked, List.filter_cons_of_pos hm, List.upTo_cons_of_neg hf, groupInvoked]

/-! ### The turn of a plain handler -/

namespace HandlerRun

theorem isMatching_iff :
    h.isMatching = true ↔ (h.kind = .typed ∨ h.kind = .raw) ∧ h.check = .ok true := by
  rw [isMatching]
  split
  · simp_all
  · simp_all
  · next htyped hraw =>
    refine iff_of_false Bool.false_ne_true fun ⟨hkind, hc⟩ => ?_
    exact hkind.elim (fun h => htyped h hc) fun h => hraw h hc

/-- A check that does not return `True` fails. -/
theorem Plain.checked_eq (hp : h.Plain) (hc : h.check ≠ .ok true) (args : Args) :
    h.checked args = .ok none := by
  have := hp.check
  rw [checked]
  split <;> simp_all [Raised.isException]

/-- The arguments are set if and only if the handler matches. -/
theorem Plain.args_eq (hp : h.Plain) :
    h.args = .ok (if h.isMatching then some h.kind.args else none) := by
  rw [HandlerRun.args]
  by_cases hc : h.check = .ok true
  · have hm : h.isMatching = true ↔ h.kind = .typed ∨ h.kind = .raw := by
      rw [isMatching_iff]
      exact and_iff_left hc
    simp only [checked, hc, hm]
    cases h.kind <;> rfl
  · rw [hp.checked_eq hc, hp.checked_eq hc, if_neg fun hm => hc (isMatching_iff.1 hm).2]
    cases h.kind <;> rfl

theorem Plain.invocation_eq (hp : h.Plain) :
    h.invocation = if h.isMatching then some (h.handler, h.kind.args) else none := by
  rw [invocation, hp.args_eq]
  cases h.isMatching <;> rfl

theorem Plain.leaves_eq (hp : h.Plain) : h.leaves = (h.isMatching && h.isFinal) := by
  rw [leaves, hp.args_eq, isFinal]
  rcases hp.callback with hc | hc | hc <;> cases h.isMatching <;> simp [hc]

theorem Plain.returns_eq (hp : h.Plain) : h.returns = (h.isMatching && h.succeeds) := by
  rw [returns, hp.args_eq, succeeds]
  rcases hp.callback with hc | hc | hc <;> cases h.isMatching <;> simp [hc]

theorem Plain.fails_eq (hp : h.Plain) : h.fails = (h.isMatching && h.isFaulty) := by
  rw [fails, hp.args_eq, isFaulty]
  rcases hp.callback with hc | hc | hc <;> cases h.isMatching <;> simp [hc]

/-- Its turn raises nothing. -/
theorem Plain.exit_eq (hp : h.Plain) : h.exit = none := by
  rw [exit, hp.args_eq, hp.onException]
  rcases hp.callback with hc | hc | hc <;> cases h.isMatching <;> simp [hc]

theorem isFinal_of_succeeds (hs : h.succeeds = true) : h.isFinal = true := by
  rw [succeeds] at hs
  rw [isFinal]
  split at hs <;> simp_all

theorem isFinal_of_isFaulty (hf : h.isFaulty = true) : h.isFinal = true := by
  rw [isFaulty] at hf
  rw [isFinal]
  split at hf <;> simp_all

end HandlerRun

/-! ### The turns of a group -/

/-- The callbacks invoked are those of the handlers that run, with the arguments of their
    kinds. -/
theorem filterMap_invocation_upTo (hg : ∀ h ∈ group, h.Plain) :
    (group.upTo HandlerRun.leaves).filterMap HandlerRun.invocation =
      (groupInvoked group).map fun h => (h.handler, h.kind.args) := by
  induction group with
  | nil => rfl
  | cons h group ih =>
    have hp := hg h List.mem_cons_self
    have ih := ih fun h hh => hg h (List.mem_cons_of_mem _ hh)
    have hl := hp.leaves_eq
    have hi := hp.invocation_eq
    -- The handler does not match, is the last one to run, or leaves the others their turns.
    cases hm : h.isMatching with
    | false =>
      rw [hm, Bool.false_and] at hl
      rw [List.upTo_cons_of_neg hl, List.filterMap_cons_none (by simpa [hm] using hi), ih,
        groupInvoked_cons_of_not_matching hm]
    | true =>
      rw [hm, if_pos rfl] at hi
      rw [hm, Bool.true_and] at hl
      cases hf : h.isFinal with
      | true =>
        rw [List.upTo_cons_of_pos (hl.trans hf), List.filterMap_cons_some hi,
          groupInvoked_cons_of_final hm hf]
        rfl
      | false =>
        rw [List.upTo_cons_of_neg (hl.trans hf), List.filterMap_cons_some hi, ih,
          groupInvoked_cons_of_not_final hm hf, List.map_cons]

/-- Of the handlers that run, only the last one may end with other than
    `ContinuePropagation`. -/
theorem lastInvoked_cons_of_not_final {p : HandlerRun H → Bool} (hm : h.isMatching = true)
    (hf : h.isFinal = false) (hpf : p h = true → h.isFinal = true) :
    lastInvoked p (h :: group) = lastInvoked p group := by
  have hph : p h = false := by
    cases hph : p h with
    | false => rfl
    | true => exact absurd (hf.symm.trans (hpf hph)) Bool.false_ne_true
  rw [lastInvoked, groupInvoked_cons_of_not_final hm hf, List.getLast?_cons, lastInvoked]
  cases (groupInvoked group).getLast? with
  | none => exact hph
  | some h' => rfl

/-- A group adds to a count what its last handler to run does. -/
theorem countP_upTo {p q : HandlerRun H → Bool} (hg : ∀ h ∈ group, h.Plain)
    (hpf : ∀ h, p h = true → h.isFinal = true)
    (hq : ∀ h : HandlerRun H, h.Plain → q h = (h.isMatching && p h)) :
    (group.upTo HandlerRun.leaves).countP q = (lastInvoked p group).toNat := by
  induction group with
  | nil => rfl
  | cons h group ih =>
    have hp := hg h List.mem_cons_self
    have ih := ih fun h hh => hg h (List.mem_cons_of_mem _ hh)
    have hl := hp.leaves_eq
    have hqh := hq h hp
    cases hm : h.isMatching with
    | false =>
      rw [hm, Bool.false_and] at hl hqh
      rw [List.upTo_cons_of_neg hl, List.countP_cons_of_neg (by simp [hqh]), ih, lastInvoked,
        lastInvoked, groupInvoked_cons_of_not_matching hm]
    | true =>
      rw [hm, Bool.true_and] at hl hqh
      cases hf : h.isFinal with
      | true =>
        rw [List.upTo_cons_of_pos (hl.trans hf), lastInvoked, groupInvoked_cons_of_final hm hf]
        cases hph : p h <;> simp [hqh, hph]
      | false =>
        rw [List.upTo_cons_of_neg (hl.trans hf), lastInvoked_cons_of_not_final hm hf (hpf h), ← ih,
          List.countP_cons_of_neg]
        intro hqh'
        exact absurd (hf.symm.trans (hpf h (hqh.symm.trans hqh'))) Bool.false_ne_true

/-! ### The whole update -/

/-- All handlers are plain. -/
def Plain (groups : List (List (HandlerRun H))) : Prop := ∀ group ∈ groups, ∀ h ∈ group, h.Plain

/-- No group raises. -/
theorem groupExit_eq_none (hg : ∀ h ∈ group, h.Plain) : groupExit group = none := by
  rw [groupExit]
  cases hfind : group.find? HandlerRun.leaves with
  | none => rfl
  | some h => exact (hg h (List.mem_of_find?_eq_some hfind)).exit_eq

/-- Every group has its turns. -/
theorem turns_eq (hp : Plain groups) :
    turns groups = groups.flatMap (List.upTo HandlerRun.leaves) := by
  induction groups with
  | nil => rfl
  | cons group groups ih =>
    have hr : groupRaises group = false := by
      rw [groupRaises, groupExit_eq_none (hp group List.mem_cons_self)]
      rfl
    rw [turns_cons_of_not_raises hr, ih fun g hg => hp g (List.mem_cons_of_mem _ hg),
      List.flatMap_cons]

/-- A count is the number of groups whose last handler to run adds to it. -/
theorem countP_turns {p q : HandlerRun H → Bool} (hp : Plain groups)
    (hpf : ∀ h, p h = true → h.isFinal = true)
    (hq : ∀ h : HandlerRun H, h.Plain → q h = (h.isMatching && p h)) :
    (turns groups).countP q = groups.countP (lastInvoked p) := by
  rw [turns_eq hp]
  induction groups with
  | nil => rfl
  | cons group groups ih =>
    rw [List.flatMap_cons, List.countP_append,
      countP_upTo (hp group List.mem_cons_self) hpf hq,
      ih fun g hg => hp g (List.mem_cons_of_mem _ hg), List.countP_cons, Nat.add_comm]
    cases lastInvoked p group <;> rfl

/-- The last handler of a group to run does not both return and raise. -/
theorem not_lastInvoked_isFaulty (h : lastInvoked HandlerRun.succeeds group = true) :
    ¬lastInvoked HandlerRun.isFaulty group = true := by
  rw [lastInvoked] at h ⊢
  obtain ⟨last, hlast, hs⟩ := (Option.any_eq_true _ _).1 h
  rw [hlast, Option.any_some, HandlerRun.isFaulty]
  rw [HandlerRun.succeeds] at hs
  split at hs <;> simp_all

/-- The group loop runs exactly the right handlers. Without a listener for the type, and with
    plain handlers, an update is handed, group by group, to the handlers that match it, up
    to the first one whose callback does not raise `ContinuePropagation`, with the arguments
    of their kinds; and it ends with the numbers of groups whose last handler to run returned,
    and raised an ordinary exception, which are together no more than there are groups. -/
theorem runs_matching_handlers {Update : Type} (history : Option HistoryRun)
    (groups : List (List (HandlerRun H))) (hp : Plain groups) (hh : ∀ h ∈ history, h.Ordinary) :
    let handling := handleUpdate (handleListen (none : Option (Outcome Update Unit))) history groups
    handling.invoked = (groups.flatMap groupInvoked).map (fun h => (h.handler, h.kind.args)) ∧
    handling.result = .ok (groups.countP (lastInvoked HandlerRun.succeeds),
      groups.countP (lastInvoked HandlerRun.isFaulty)) ∧
    groups.countP (lastInvoked HandlerRun.succeeds) +
      groups.countP (lastInvoked HandlerRun.isFaulty) ≤ groups.length := by
  obtain ⟨records, hi⟩ := exists_initialRecords (H := H) hh
  refine ⟨?_, ?_, ?_⟩
  · rw [handleListen, handleUpdate, invoked_handleGroups hi, turns_eq hp, List.filterMap_flatMap,
      List.map_flatMap]
    exact List.flatMap_congr fun group hg => filterMap_invocation_upTo (hp group hg)
  · rw [handleListen, handleUpdate, result_handleGroups hi fun h hmem => (hh h hmem).recordMany]
    have hnone : groups.findSome? groupExit = none :=
      List.findSome?_eq_none_iff.2 fun group hg => groupExit_eq_none (hp group hg)
    rw [hnone, countP_turns hp (fun h => HandlerRun.isFinal_of_succeeds) fun h hp => hp.returns_eq,
      countP_turns hp (fun h => HandlerRun.isFinal_of_isFaulty) fun h hp => hp.fails_eq]
  · rw [List.length_eq_countP_add_countP (lastInvoked HandlerRun.succeeds)]
    refine Nat.add_le_add_left (List.countP_mono_left fun group _ hf => ?_) _
    exact decide_eq_true fun hs => not_lastInvoked_isFaulty hs hf

/-- A handler that passes the update on, one that returns, before another one, and one of the
    next group that raises. -/
theorem runs_matching_handlers_two :
    let handling := handleUpdate (handleListen (none : Option (Outcome Unit Unit))) none
      [[passing 1 (.error .continuePropagation), passing 2 (.ok ()), passing 3 (.ok ())],
        [passing 4 (.error .exception)]]
    handling.invoked = [(1, .parsed), (2, .parsed), (4, .parsed)] ∧
      handling.result = .ok (1, 1) := by
  have hpassing (n : ℕ) {callback : Except Raised Unit} (hc : callback = .ok () ∨
      callback = .error .continuePropagation ∨ callback = .error .exception) :
      (passing n callback).Plain := ⟨nofun, hc, rfl⟩
  have hp : Plain [[passing 1 (.error .continuePropagation), passing 2 (.ok ()),
      passing 3 (.ok ())], [passing 4 (.error .exception)]] := by
    simp only [Plain, List.forall_mem_cons, List.not_mem_nil, IsEmpty.forall_iff, implies_true,
      and_true]
    exact ⟨⟨hpassing 1 (.inr (.inl rfl)), hpassing 2 (.inl rfl), hpassing 3 (.inl rfl)⟩,
      hpassing 4 (.inr (.inr rfl))⟩
  obtain ⟨hinvoked, hresult, _⟩ := @runs_matching_handlers ℕ Unit none _ hp nofun
  exact ⟨hinvoked.trans (by decide), hresult.trans (by decide)⟩

end Pyroflow.Dispatcher
