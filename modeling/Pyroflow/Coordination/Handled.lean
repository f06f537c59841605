import Pyroflow.Coordination.Settlement
import Pyroflow.Dispatcher.Ordinary

/-!
# Which updates get registered

The `finally` block of `handle_update` registers an update by the counts of
`_handle_update`, or because a handler stopped the propagation. With ordinary
handlers (`HandlerRun.Ordinary`) it registers the update when some handler ran and
did not raise `ContinuePropagation` (`countsAsHandled_iff`), while a callback is
invoked when some check passes (`invoked_ne_nil_iff`).

Both say the same of an update (`handled_iff_invoked_iff`) unless the handlers
that ran all raised `ContinuePropagation`.
-/

namespace Pyroflow

open Dispatcher

/-- `handle_update` counts an update as handled if and only if some handler runs and does
    not raise `ContinuePropagation`. -/
theorem countsAsHandled_iff {H : Type} {groups : List (List (HandlerRun H))}
    {history : Option HistoryRun} (ho : Dispatcher.Ordinary groups)
    (hh : ∀ h ∈ history, h.Ordinary) :
    countsAsHandled (handleUpdate (.ok ()) history groups).result = true ↔
      SomeHandler groups fun h =>
        h.passes = true ∧ h.callback ≠ .error .continuePropagation := by
  have hleaves : (SomeHandler groups fun h => h.leaves = true) ↔ SomeHandler groups fun h =>
      h.passes = true ∧ h.callback ≠ .error .continuePropagation := by
    refine exists_congr fun group => and_congr_right fun hg => ?_
    exact exists_congr fun h => and_congr_right fun hh => (ho group hg h hh).leaves_iff
  obtain ⟨records, hi⟩ := exists_initialRecords (H := H) hh
  rw [← hleaves, handleUpdate, result_handleGroups hi fun h hmem => (hh h hmem).recordMany]
  -- If a group raises, its last turn does, and it is `StopPropagation`, which counts as
  -- handled. Else the counts tell.
  cases hexit : groups.findSome? groupExit with
  | some exc =>
    obtain ⟨group, hg, he⟩ := List.exists_of_findSome?_eq_some hexit
    obtain rfl := groupExit_eq_stop ho hg he
    obtain ⟨h, hfind, _⟩ := Option.bind_eq_some_iff.1 he
    exact iff_of_true rfl ⟨group, hg, h, List.mem_of_find?_eq_some hfind, List.find?_some hfind⟩
  | none =>
    have hcount (a b : ℕ) : 1 ≤ a + b ↔ 0 < a ∨ 0 < b := by omega
    rw [← exists_mem_turns_iff ho fun _ _ hl => hl]
    simp only [countsAsHandled, decide_eq_true_eq]
    rw [hcount, List.countP_pos_iff, List.countP_pos_iff]
    constructor
    · rintro (⟨h, hmem, hr⟩ | ⟨h, hmem, hf⟩)
      · exact ⟨h, hmem, HandlerRun.leaves_of_counted (.inl hr)⟩
      · exact ⟨h, hmem, HandlerRun.leaves_of_counted (.inr hf)⟩
    · -- The turn that leaves a group does not raise: it is counted.
      rintro ⟨h, hmem, hl⟩
      obtain ⟨group, hg, hh⟩ := List.mem_flatMap.1 hmem
      have hg := List.upTo_subset hg
      have hnone := List.findSome?_eq_none_iff.1 hexit group hg
      rw [groupExit, List.find?_eq_some_of_mem_upTo hh hl, Option.bind_some] at hnone
      rcases (ho group hg h (List.upTo_subset hh)).leaves_cases hl with
        ⟨_, hr | hf⟩ | hstop
      · exact .inl ⟨h, hmem, hr⟩
      · exact .inr ⟨h, hmem, hf⟩
      · exact absurd (hstop.symm.trans hnone) (Option.some_ne_none _)

/-! ### A delivery that nothing disturbs -/

variable {Key Id : Type}

/-- The events of a delivery that acquires its lock and whose `_handle_update` ends so:
    neither the hooks nor the backend raise, and `mark_handled()` is not called. -/
inductive DeliveryEvent.Handles (result : Except Raised (ℕ × ℕ)) : DeliveryEvent → Prop
  | coordinatable : Handles result (.coordinatable true)
  | lock : Handles result (.lock true)
  | acquire : Handles result (.acquire (some true))
  | identify : Handles result (.identify none)
  | check : Handles result (.check none)
  | checked : Handles result .checked
  | ran : Handles result (.ran result)
  | mark : Handles result (.settle (.mark true))
  | release : Handles result (.settle .release)
  | settled : Handles result .settled

/-- What holds of such a delivery of an update that was not registered, and of the
    registration of the update so far. -/
def Delivery.Alone (dl : Delivery Key Id) (counts handled : Bool) : Prop :=
  match dl.pc with
  | .coordinatable | .locking | .acquiring => dl.coordinatable = true ∧ handled = false
  | .identifying => dl.release = some .new ∧ handled = false
  | .checking | .checked false | .running =>
    dl.release = some ⟨none, false, some dl.id⟩ ∧ handled = false
  | .settling .marking _ =>
    (∃ r, dl.release = some r ∧ r.updateId = some dl.id) ∧ counts = true ∧ handled = false
  | .settling .releasing _ | .settling .done _ | .ended _ => handled = counts
  | .uncoordinated | .checked true | .settling .scheduled _ | .awaiting _ => False

section Alone

variable [DecidableEq Id] {dl dl' : Delivery Key Id} {handled handled' : Id → Bool}
  {e : DeliveryEvent} {a : Mutex.Action Key} {result : Except Raised (ℕ × ℕ)}

/-- The settlement in the `finally` block registers the update if it counts as handled. -/
theorem Delivery.Step.alone (hst : dl.Step handled e a handled' dl') (he : e.Handles result)
    (h : dl.Alone (countsAsHandled result) (handled dl.id)) :
    dl'.Alone (countsAsHandled result) (handled' dl'.id) := by
  -- The delivery passes the lock and the registry, which does not know the update, runs
  -- the handlers, and settles; the other steps are none of its events.
  cases hst with
  | coordinatable pc yes | lock pc =>
    simp only [Delivery.Alone, pc] at h ⊢
    exact h
  | notCoordinatable pc no =>
    simp only [Delivery.Alone, pc, no] at h
    exact absurd h.1 nofun
  | acquire pc =>
    simp only [Delivery.Alone, pc] at h ⊢
    exact ⟨trivial, h.2⟩
  | identify pc rel =>
    simp only [Delivery.Alone, pc, rel, Option.some.injEq] at h
    obtain ⟨rfl, hh⟩ := h
    exact ⟨rfl, hh⟩
  | check pc =>
    simp only [Delivery.Alone, pc] at h ⊢
    rw [h.2]
    exact ⟨h.1, rfl⟩
  | process pc =>
    simp only [Delivery.Alone, pc] at h ⊢
    exact h
  | ran pc rel =>
    cases he
    simp only [Delivery.Alone, pc, rel, Option.some.injEq] at h
    obtain ⟨rfl, hh⟩ := h
    -- An update that counts as handled is marked before the release.
    cases hc : countsAsHandled result with
    | true =>
      simp only [Delivery.finish, Release.settle, hc, Delivery.Alone]
      exact ⟨⟨_, rfl, rfl⟩, trivial, hh⟩
    | false =>
      simp only [Delivery.finish, Release.settle, hc, Delivery.Alone]
      exact hh
  | settle pc rel step =>
    cases step with
    | mark known =>
      simp only [Delivery.Alone, pc, rel] at h ⊢
      obtain ⟨⟨r, hr, hid⟩, hc, -⟩ := h
      obtain rfl := Option.some.inj hr
      obtain rfl := Option.some.inj (known.symm.trans hid)
      rw [Function.update_self, hc]
    | markFails => cases he
    | release =>
      simp only [Delivery.Alone, pc] at h ⊢
      exact h
  | settled pc =>
    simp only [Delivery.Alone, pc] at h ⊢
    exact h
  | drop pc | uncoordinated pc | awaited pc =>
    simp only [Delivery.Alone, pc] at h
  | _ => cases he

end Alone

namespace Coordination

variable [DecidableEq Key] [DecidableEq Id] {s s' : State Key Id} {l : Label Key Id} {d : ℕ}
  {key : Key} {id : Id} {result : Except Raised (ℕ × ℕ)} {dl : Delivery Key Id}

/-- The steps of a run in which a delivery is handled so. The steps of other deliveries may
    come in between, as long as they leave the entry of the update in the registry. -/
inductive Label.Handles (d : ℕ) (key : Key) (id : Id) (result : Except Raised (ℕ × ℕ))
    (s : State Key Id) : Label Key Id → Prop
  | start : Handles d key id result s (.start d true key id)
  | deliver {e} (handles : e.Handles result) : Handles d key id result s (.deliver d e)
  | other {l : Label Key Id} (start : ∀ coordinatable key id, l ≠ .start d coordinatable key id)
      (deliver : ∀ e, l ≠ .deliver d e) (keeps : ∀ s', Step s l s' → s'.handled id = s.handled id) :
      Handles d key id result s l

/-- What holds of the delivery in such a run. -/
def State.Alone (s : State Key Id) (d : ℕ) (id : Id) (counts : Bool) : Prop :=
  match s.deliveries d with
  | none => s.handled id = false
  | some dl => dl.id = id ∧ dl.Alone counts (s.handled id)

theorem Step.alone (hst : Step s l s') (hl : l.Handles d key id result s)
    (h : s.Alone d id (countsAsHandled result)) : s'.Alone d id (countsAsHandled result) := by
  -- Only the two steps of the delivery itself concern it, as others keep the entry.
  cases hl with
  | start =>
    cases hst with
    | start new =>
      simp only [State.Alone, new] at h
      simp only [State.Alone, Function.update_self, Delivery.Alone]
      exact ⟨trivial, trivial, h⟩
  | deliver handles =>
    cases hst with
    | deliver found step =>
      simp only [State.Alone, found] at h
      obtain ⟨rfl, h⟩ := h
      simp only [State.Alone, Function.update_self]
      have hid := step.update_eq.2.1
      exact ⟨hid, hid ▸ step.alone handles h⟩
  | other start deliver keeps =>
    have hd : s'.deliveries d = s.deliveries d := by
      cases hst with
      | @start d' =>
        refine Function.update_of_ne ?_ ..
        rintro rfl
        exact start _ _ _ rfl
      | @deliver d' =>
        refine Function.update_of_ne ?_ ..
        rintro rfl
        exact deliver _ rfl
      | expire => rfl
    rw [State.Alone, hd, keeps s' hst]
    exact h

/-- In such a run, the registry tells at the end whether `_handle_update` counts as
    handled. -/
theorem handled_of_ended {o : Except Raised Unit} (hd : s.deliveries d = none)
    (hid : s.handled id = false)
    (hr : (coordinationLts Key Id).RunUnder (fun s l => l.Handles d key id result s) s s')
    (hd' : s'.deliveries d = some dl) (hpc : dl.pc = .ended o) :
    s'.handled id = countsAsHandled result := by
  have hs : s.Alone d id (countsAsHandled result) := by
    simp only [State.Alone, hd]
    exact hid
  have hs' : s'.Alone d id (countsAsHandled result) :=
    hr.invariant hs fun _ _ _ h hl hst => hst.alone hl h
  simp only [State.Alone, hd', Delivery.Alone, hpc] at hs'
  exact hs'.2

/-- A run goes on by a step of a delivery. -/
theorem run_deliver {P : State Key Id → Label Key Id → Prop} {e : DeliveryEvent}
    {a : Mutex.Action Key} {handled : Id → Bool} {dl' : Delivery Key Id}
    (hr : (coordinationLts Key Id).RunUnder P s s') (found : s'.deliveries d = some dl)
    (step : dl.Step s'.handled e a handled dl') (enabled : a.Enabled s'.locked)
    (hP : P s' (.deliver d e)) :
    ∃ s'', (coordinationLts Key Id).RunUnder P s s'' ∧ s''.deliveries d = some dl' ∧
      s''.handled = handled :=
  ⟨_, hr.tail hP (.deliver found step enabled), Function.update_self .., rfl⟩

/-- If the lock is free, there is such a run, to the end. -/
theorem run_ends (d : ℕ) (key : Key) (id : Id) (hd : s.deliveries d = none)
    (hid : s.handled id = false) (hfree : s.locked key = false) (result : Except Raised (ℕ × ℕ)) :
    ∃ s' dl o, (coordinationLts Key Id).RunUnder (fun s l => l.Handles d key id result s) s s' ∧
      s'.deliveries d = some dl ∧ dl.pc = .ended o := by
  -- The steps up to the lock, to the handlers, and through the `finally` block.
  have h₁ := run_acquires (P := fun s l => l.Handles d key id result s) d key id
    (by
      rintro s l (_ | _ | _ | _)
      · exact .start
      · exact .deliver .coordinatable
      · exact .deliver .lock
      · exact .deliver .acquire) hd hfree
  obtain ⟨s₂, h₂, hd₂, hh₂⟩ := run_deliver h₁ (Function.update_self ..)
    (.identify rfl rfl) trivial (.deliver .identify)
  obtain ⟨s₃, h₃, hd₃, -⟩ := run_deliver h₂ hd₂ (.check rfl) trivial (.deliver .check)
  obtain ⟨s₄, h₄, hd₄, -⟩ := run_deliver h₃ hd₃ (.process (by simp only [hh₂, hid])) trivial
    (.deliver .checked)
  obtain ⟨s₅, h₅, hd₅, -⟩ := run_deliver (e := .ran result) h₄ hd₄ (.ran rfl rfl) trivial
    (.deliver .ran)
  cases hc : countsAsHandled result with
  | true =>
    simp only [Delivery.finish, Release.settle, Release.new, hc] at hd₅
    obtain ⟨s₆, h₆, hd₆, -⟩ := run_deliver h₅ hd₅ (.settle rfl rfl (.mark rfl)) trivial
      (.deliver .mark)
    obtain ⟨s₇, h₇, hd₇, -⟩ := run_deliver h₆ hd₆ (.settle rfl rfl .release) trivial
      (.deliver .release)
    obtain ⟨s₈, h₈, hd₈, -⟩ := run_deliver h₇ hd₇ (.settled rfl) trivial (.deliver .settled)
    exact ⟨s₈, _, _, h₈, hd₈, rfl⟩
  | false =>
    simp only [Delivery.finish, Release.settle, Release.new, hc] at hd₅
    obtain ⟨s₆, h₆, hd₆, -⟩ := run_deliver h₅ hd₅ (.settle rfl rfl .release) trivial
      (.deliver .release)
    obtain ⟨s₇, h₇, hd₇, -⟩ := run_deliver h₆ hd₆ (.settled rfl) trivial (.deliver .settled)
    exact ⟨s₇, _, _, h₇, hd₇, rfl⟩

/-- A delivery of an update that is not registered ends, and when it has, the update is
    registered if and only if a callback was invoked: so it is if and only if, where a
    check passes, one does of a handler that does not raise `ContinuePropagation`. -/
theorem handled_iff_invoked_iff {H : Type} {groups : List (List (HandlerRun H))}
    (history : Option HistoryRun) (ho : Dispatcher.Ordinary groups)
    (hh : ∀ h ∈ history, h.Ordinary) (d : ℕ) (key : Key) (id : Id)
    (hd : s.deliveries d = none) (hid : s.handled id = false) :
    (s.locked key = false → ∃ s' dl o,
      (coordinationLts Key Id).RunUnder (fun s l =>
        l.Handles d key id (handleUpdate (.ok ()) history groups).result s) s s' ∧
      s'.deliveries d = some dl ∧ dl.pc = .ended o) ∧
    ∀ s' dl o,
      (coordinationLts Key Id).RunUnder (fun s l =>
        l.Handles d key id (handleUpdate (.ok ()) history groups).result s) s s' →
      s'.deliveries d = some dl → dl.pc = .ended o →
      ((s'.handled id = true ↔ (handleUpdate (.ok ()) history groups).invoked ≠ []) ↔
        ((SomeHandler groups fun h => h.passes = true) →
          SomeHandler groups fun h =>
            h.passes = true ∧ h.callback ≠ .error .continuePropagation)) := by
  refine ⟨fun hfree => run_ends d key id hd hid hfree _, fun s' dl o hr hd' hpc => ?_⟩
  rw [handled_of_ended hd hid hr hd' hpc, countsAsHandled_iff ho hh, invoked_ne_nil_iff ho hh]
  refine iff_iff_implies_and_implies.trans (and_iff_right ?_)
  rintro ⟨group, hg, h, hmem, hp, -⟩
  exact ⟨group, hg, h, hmem, hp⟩

/-- A handler runs and returns: its update is registered. -/
theorem handled_iff_invoked_iff_returned : ∃ (s : State ℕ ℕ) (dl : Delivery ℕ ℕ) (o : _),
    s.deliveries 0 = some dl ∧ dl.pc = .ended o ∧ s.handled 5 = true := by
  have ho : Dispatcher.Ordinary [[passing 1 (.ok ())]] := by
    rintro group hg h hh
    obtain rfl := List.mem_singleton.1 hg
    obtain rfl := List.mem_singleton.1 hh
    exact ⟨by decide, by decide, rfl⟩
  obtain ⟨hrun, hend⟩ := handled_iff_invoked_iff (s := .init ℕ ℕ) none ho
    (by rintro h ⟨⟩) 0 100 5 rfl rfl
  obtain ⟨s, dl, o, hr, hd, hpc⟩ := hrun rfl
  refine ⟨s, dl, o, hd, hpc, ((hend s dl o hr hd hpc).2 fun _ => ?_).2 (by decide)⟩
  exact ⟨_, .head _, _, .head _, rfl, by decide⟩

/-- A handler runs and raises `ContinuePropagation`: its update is not registered. -/
theorem not_handled_of_continue : ∃ (s : State ℕ ℕ) (dl : Delivery ℕ ℕ) (o : _),
    (coordinationLts ℕ ℕ).RunUnder (fun s l => l.Handles 0 100 5 (handleUpdate (.ok ()) none
      [[passing 1 (.error .continuePropagation)]]).result s) (.init ..) s ∧
    s.deliveries 0 = some dl ∧ dl.pc = .ended o ∧
    ¬ (s.handled 5 = true ↔ (handleUpdate (.ok ()) none
      [[passing 1 (.error .continuePropagation)]]).invoked ≠ []) := by
  obtain ⟨s, dl, o, hr, hd, hpc⟩ := run_ends (s := .init ℕ ℕ) 0 100 5 rfl rfl rfl
    (handleUpdate (.ok ()) none [[passing 1 (.error .continuePropagation)]]).result
  refine ⟨s, dl, o, hr, hd, hpc, ?_⟩
  rw [handled_of_ended rfl rfl hr hd hpc]
  decide

end Coordination

end Pyroflow
