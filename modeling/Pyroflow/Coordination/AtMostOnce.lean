import Pyroflow.Coordination.Settlement

/-!
# At-most-once processing

An update that is delivered many times is handled once at most, if its deliveries are
processed under one lock (`Reliable`). A delivery whose run counts as handled
(`Delivery.Handled`) registers the update before it releases the lock
(`Delivery.Sound.marked`), and one that has looked the update up and not found it holds
the lock until it has settled, so that nobody registers the update meanwhile
(`State.Once.fresh`). Hence a run only starts, and only comes to count as handled,
while no other one has (`processes_at_most_once`).
-/

namespace Pyroflow

open Dispatcher

variable {Key Id : Type}

/-- Where `handle_update` has the update id, in its `try` block. -/
def DeliveryPc.Identified : DeliveryPc → Prop
  | .checking | .checked _ | .running => True
  | _ => False

/-- Where `_handle_update` has ended, or is not to run. -/
def DeliveryPc.Over : DeliveryPc → Prop
  | .settling .. | .awaiting _ | .ended _ => True
  | _ => False

namespace Delivery

/-! ### One delivery -/

/-- The run of `_handle_update` counts as handled: by how it ended, or because a
    `mark_handled()` call inside it returned `True`. -/
def Handled (dl : Delivery Key Id) : Prop :=
  Call.claim ∈ dl.calls ∨ ∃ result, dl.ran = some result ∧ countsAsHandled result = true

/-- What is assumed of the events of a delivery: setting the coordination up does not
    raise, the registry is written, and `mark_handled()` is called from handlers. -/
structure Reliable (dl : Delivery Key Id) (e : DeliveryEvent) : Prop where
  setUp : e ≠ .coordinatable false ∧ e ≠ .lock false ∧ e ≠ .acquire none
  written : e ≠ .early (.mark false) ∧ e ≠ .settle (.mark false)
  running : ∀ answer, e = .markHandled answer → dl.pc = .running

/-- The settlement will not register the update any more. -/
def PastMarking (dl : Delivery Key Id) : Prop :=
  Call.release ∈ dl.calls ∨ (∃ r, dl.release = some r ∧ r.early = some .releasing) ∨
    ∃ o, dl.pc = .settling .releasing o

/-- What holds of a delivery, as long as its events are reliable. -/
structure Sound (dl : Delivery Key Id) : Prop where
  /-- It is processed without coordination if it is not to be coordinated only. -/
  coordinated : dl.pc = .uncoordinated → dl.coordinatable = false
  /-- Else it runs under its lock. -/
  locked : dl.coordinatable = true → dl.ran ≠ none → Call.acquire ∈ dl.calls
  /-- The update id of its release is its own. -/
  own : ∀ r id, dl.release = some r → r.updateId = some id → id = dl.id
  /-- Its release has an update id before it may run, and when it is claimed. -/
  known : ∀ r, dl.release = some r → dl.pc.Identified ∨ r.early.isSome = true →
    r.updateId.isSome = true
  /-- It has not run before it is over. -/
  fresh : ¬dl.pc.Over → dl.ran = none
  /-- It is not claimed before it runs. -/
  unclaimed : dl.pc.Inside → dl.pc ≠ .running → Call.claim ∉ dl.calls
  /-- If it counts as handled, it registers the update. -/
  marked : dl.Handled → dl.PastMarking → Call.mark ∈ dl.calls

variable {dl : Delivery Key Id} {r : Release Id}

/-- Where a delivery has acquired no lock. -/
theorem Sound.of_outside (rel : dl.release = none) (calls : dl.calls = []) (hpc : dl.pc.Outside)
    (hun : dl.pc = .uncoordinated → dl.coordinatable = false)
    (hran : dl.coordinatable = true → dl.ran = none) (hover : ¬dl.pc.Over → dl.ran = none) :
    dl.Sound where
  coordinated := hun
  locked hc hne := absurd (hran hc) hne
  own r _ hr := absurd (rel.symm.trans hr) nofun
  known r hr := absurd (rel.symm.trans hr) nofun
  fresh := hover
  unclaimed _ _ := by simp [calls]
  marked _ h := by
    rcases h with h | ⟨r, hr, _⟩ | ⟨o, h⟩
    · exact absurd h (by simp [calls])
    · exact absurd (rel.symm.trans hr) nofun
    · rw [h] at hpc
      exact hpc.elim

/-- The `try` block ends: a delivery that counts as handled goes for the registry. -/
theorem Sound.finish (hs : dl.Sound) (hp : dl.Phase) (hpc : dl.pc.Inside)
    (hr : dl.release = some r) (result : Except Raised (ℕ × ℕ))
    {ran : Option (Except Raised (ℕ × ℕ))}
    (hran : (∃ result', ran = some result' ∧ countsAsHandled result' = true) →
      countsAsHandled result = true ∧ r.updateId.isSome = true) :
    Sound { dl.finish r result with ran := ran } := by
  obtain ⟨r', rel, h⟩ := hp.of_inside hpc
  obtain rfl := Option.some.inj (rel.symm.trans hr)
  rw [Delivery.finish]
  rcases h with ⟨early, released, calls⟩ | ⟨sp, made, early, released, calls, tail⟩
  · rw [if_neg (by simp [early]), settle_eq released]
    refine ⟨(by rintro ⟨⟩), fun _ _ => by simp [calls], fun r' id hr' hid => ?_, fun r' hr' h => ?_,
      fun h => absurd trivial h, fun h => h.elim, fun hh hpast => ?_⟩
    · obtain rfl := Option.some.inj hr'
      exact hs.own _ id rel hid
    · obtain rfl := Option.some.inj hr'
      rcases h with h | h
      · exact h.elim
      · exact absurd h (by simp [early])
    · -- It goes for the registry, and is not past marking.
      have hcount := hran (hh.resolve_left (by simp [calls]))
      rcases hpast with h | ⟨r', hr', h⟩ | ⟨o, h⟩
      · simp [calls] at h
      · obtain rfl := Option.some.inj hr'
        rw [early] at h
        cases h
      · simp [hcount] at h
  · rw [if_pos (by simp [early])]
    refine ⟨(by rintro ⟨⟩), fun _ _ => by simp [calls], hs.own, fun r' hr' h => ?_,
      fun h => absurd trivial h, fun h => h.elim, fun _ hpast => ?_⟩
    · exact hs.known r' hr' (.inr (h.resolve_left False.elim))
    · refine hs.marked (.inl (by simp [calls])) ?_
      rcases hpast with h | h | ⟨o, h⟩
      · exact .inl h
      · exact .inr (.inl h)
      · cases h

/-- The `try` block goes on. -/
theorem Sound.goes_on (hs : dl.Sound) (hp : dl.Phase) (hpc : dl.pc.Inside)
    {dl' : Delivery Key Id} (hpc' : dl'.pc.Inside) (hnew : dl.pc ≠ .running)
    (hran : dl'.ran = dl.ran) (hcalls : dl'.calls = dl.calls) (hid : dl'.id = dl.id)
    (hr : ∀ r, dl.release = some r → ∃ r', dl'.release = some r' ∧ r'.early = r.early ∧
      (∀ id, r'.updateId = some id → id = dl.id) ∧ r'.updateId.isSome = true) : dl'.Sound := by
  obtain ⟨r, rel, h⟩ := hp.of_inside hpc
  obtain ⟨r', rel', hearly, hown, hsome⟩ := hr r rel
  have hcl := hs.unclaimed hpc hnew
  have hfresh : dl.ran = none := hs.fresh fun h => by
    cases hdl : dl.pc with
    | settling | awaiting | ended => exact (hdl ▸ hpc).elim
    | _ => exact (hdl ▸ h).elim
  refine ⟨fun h => (h ▸ hpc').elim, fun _ h => absurd (hran.trans hfresh) h, fun r₂ id hr₂ h => ?_,
    fun r₂ hr₂ _ => ?_, fun _ => hran.trans hfresh, fun _ _ => hcalls ▸ hcl, fun hh => ?_⟩
  · obtain rfl := Option.some.inj (rel'.symm.trans hr₂)
    exact (hown id h).trans hid.symm
  · obtain rfl := Option.some.inj (rel'.symm.trans hr₂)
    exact hsome
  · rcases hh with h | ⟨result, h, _⟩
    · exact absurd (hcalls ▸ h) hcl
    · exact absurd ((hran.trans hfresh).symm.trans h) nofun

/-- A delivery that has made no call has not run, if it is to be coordinated. -/
theorem Sound.ran_of_outside (hs : dl.Sound) (calls : dl.calls = [])
    (hc : dl.coordinatable = true) : dl.ran = none := by
  by_contra hne
  exact absurd (calls ▸ hs.locked hc hne) nofun

/-- A release with the update id of the one before has that of its delivery. -/
theorem Sound.own_of_eq (hs : dl.Sound) (rel : dl.release = some r) {r₁ r₂ : Release Id} {id : Id}
    (heq : r₁.updateId = r.updateId) (hr : some r₁ = some r₂) (h : r₂.updateId = some id) :
    id = dl.id := by
  obtain rfl := Option.some.inj hr
  exact hs.own r id rel (heq ▸ h)

/-- The calls of a settlement do not make a delivery count as handled. -/
theorem Handled.of_append {pc : DeliveryPc} {release : Option (Release Id)} {call : Call}
    (h : Handled { dl with pc := pc, release := release, calls := dl.calls ++ [call] })
    (hc : call ≠ .claim) : dl.Handled := by
  rcases h with h | h
  · rcases List.mem_append.1 h with h | h
    · exact .inl h
    · exact absurd (List.mem_singleton.1 h).symm hc
  · exact .inr h

variable [DecidableEq Id] {dl' : Delivery Key Id} {handled handled' : Id → Bool}
  {e : DeliveryEvent} {a : Mutex.Action Key}

/-- Reliable steps keep a delivery sound. -/
theorem Step.sound (h : dl.Step handled e a handled' dl') (he : dl.Reliable e) (hp : dl.Phase)
    (hs : dl.Sound) : dl'.Sound := by
  cases h with
  | coordinatableRaises => exact absurd rfl he.setUp.1
  | lockRaises => exact absurd rfl he.setUp.2.1
  | acquireRaises => exact absurd rfl he.setUp.2.2
  | coordinatable pc | lock pc =>
    obtain ⟨rel, calls⟩ := hp.of_outside (by rw [pc]; trivial) (by rw [pc]; exact nofun)
    exact .of_outside rel calls trivial nofun (hs.ran_of_outside calls)
      fun _ => hs.fresh (by rw [pc]; exact False.elim)
  | notCoordinatable pc no =>
    obtain ⟨rel, calls⟩ := hp.of_outside (by rw [pc]; trivial) (by rw [pc]; exact nofun)
    exact .of_outside rel calls trivial (fun _ => no) (hs.ran_of_outside calls)
      fun _ => hs.fresh (by rw [pc]; exact False.elim)
  | timeout pc =>
    obtain ⟨rel, calls⟩ := hp.of_outside (by rw [pc]; trivial) (by rw [pc]; exact nofun)
    exact .of_outside rel calls trivial nofun (hs.ran_of_outside calls) (absurd trivial)
  | uncoordinated pc =>
    obtain ⟨rel, calls⟩ := hp.of_outside (by rw [pc]; trivial) (by rw [pc]; exact nofun)
    refine .of_outside rel calls trivial nofun (fun hc => ?_) (absurd trivial)
    exact absurd ((hs.coordinated pc).symm.trans hc) nofun
  | acquire pc =>
    obtain ⟨_, calls⟩ := hp.of_outside (by rw [pc]; trivial) (by rw [pc]; exact nofun)
    have hran : dl.ran = none := hs.fresh (by rw [pc]; exact False.elim)
    refine ⟨nofun, fun _ _ => by simp, fun r _ hr h => ?_, fun r hr h => ?_, fun _ => hran,
      fun _ _ => by simp [calls], fun hh _ => ?_⟩
    · obtain rfl := Option.some.inj hr
      exact absurd h nofun
    · obtain rfl := Option.some.inj hr
      rcases h with h | h
      · exact h.elim
      · exact absurd h nofun
    · rcases hh with h | ⟨_, h, _⟩
      · simp [calls] at h
      · exact absurd (hran.symm.trans h) nofun
  | identify pc rel =>
    refine hs.goes_on hp (by rw [pc]; trivial) trivial (by rw [pc]; exact nofun) rfl rfl rfl
      fun r hr => ⟨_, rfl, ?_, fun id h => (Option.some.inj h).symm, rfl⟩
    obtain rfl := Option.some.inj (rel.symm.trans hr)
    rfl
  | check pc | process pc =>
    exact hs.goes_on hp (by rw [pc]; trivial) trivial (by rw [pc]; exact nofun) rfl rfl rfl
      fun r hr => ⟨r, hr, rfl, fun id => hs.own r id hr, hs.known r hr (.inl (by rw [pc]; trivial))⟩
  | identifyRaises pc rel | checkRaises pc rel | drop pc rel =>
    refine hs.finish hp (by rw [pc]; trivial) rel _ fun ⟨_, h, _⟩ => ?_
    have hran : dl.ran = none := hs.fresh (by rw [pc]; exact False.elim)
    exact absurd ((finish_ran _).symm.trans h |>.symm.trans hran) nofun
  | ran pc rel =>
    refine hs.finish hp (by rw [pc]; trivial) rel _ fun ⟨_, h, hcount⟩ => ?_
    obtain rfl := Option.some.inj h
    exact ⟨hcount, hs.known _ rel (.inl (by rw [pc]; trivial))⟩
  | markHandled rel claimed =>
    have hpc := he.running _ rfl
    obtain ⟨early, released, rfl⟩ := claimEarly_eq_some claimed
    obtain ⟨_, calls⟩ := hp.of_unclaimed rel early released
    have hid := hs.known _ rel (.inl (by rw [hpc]; trivial))
    refine ⟨hs.coordinated, fun _ _ => by simp [calls], fun _ _ => hs.own_of_eq rel rfl,
      fun _ hr _ => Option.some.inj hr ▸ hid, hs.fresh, fun _ h => absurd hpc h,
      fun _ hpast => ?_⟩
    rcases hpast with h | ⟨r, hr, h⟩ | ⟨o, h⟩
    · simp [calls] at h
    · obtain rfl := Option.some.inj hr
      exact absurd h nofun
    · exact absurd (hpc.symm.trans h) nofun
  | markHandledLate => exact hs
  | earlyStart rel early =>
    obtain ⟨made, released, _⟩ := hp.of_claimed rel early
    have hid := hs.known _ rel (.inr (by rw [early]; rfl))
    rw [settle_eq (released.2 rfl), hid]
    refine ⟨hs.coordinated, hs.locked, fun _ _ => hs.own_of_eq rel rfl,
      fun _ hr _ => Option.some.inj hr ▸ hid, hs.fresh, hs.unclaimed,
      fun hh hpast => hs.marked hh ?_⟩
    rcases hpast with h | ⟨r, hr, h⟩ | h
    · exact .inl h
    · obtain rfl := Option.some.inj hr
      exact absurd h nofun
    · exact .inr (.inr h)
  | early rel early step =>
    have hid := hs.known _ rel (.inr (by rw [early]; rfl))
    refine ⟨hs.coordinated, fun hc hr => List.mem_append_left _ (hs.locked hc hr),
      fun _ _ => hs.own_of_eq rel rfl, fun _ hr _ => Option.some.inj hr ▸ hid, hs.fresh,
      fun hpc hne => ?_, fun hh _ => ?_⟩
    · have := hs.unclaimed hpc hne
      cases step <;> simpa using this
    · cases step with
      | mark => simp
      | markFails => exact absurd rfl he.written.1
      | release =>
        exact List.mem_append_left _ (hs.marked (hh.of_append nofun) (.inr (.inl ⟨_, rel, early⟩)))
  | settle pc rel step =>
    refine ⟨nofun, fun hc hr => List.mem_append_left _ (hs.locked hc hr), hs.own,
      fun r hr h => hs.known r hr (.inr (h.resolve_left False.elim)), absurd trivial,
      fun h => h.elim, fun hh _ => ?_⟩
    cases step with
    | mark => simp
    | markFails => exact absurd rfl he.written.2
    | release => exact List.mem_append_left _ (hs.marked (hh.of_append nofun) (.inr (.inr ⟨_, pc⟩)))
  | settled pc | awaited pc =>
    refine ⟨nofun, hs.locked, hs.own,
      fun r hr h => hs.known r hr (.inr (h.resolve_left False.elim)), absurd trivial,
      fun h => h.elim, fun hh hpast => hs.marked hh ?_⟩
    rcases hpast with h | h | ⟨_, h⟩
    · exact .inl h
    · exact .inr (.inl h)
    · exact absurd h nofun

/-- `_handle_update` runs. -/
def Running (dl : Delivery Key Id) : Prop := dl.pc = .running ∨ dl.pc = .uncoordinated

/-- A run under the lock starts where the update was not registered. -/
theorem Step.running (h : dl.Step handled e a handled' dl') (hpc : dl'.pc = .running) :
    dl.pc = .running ∨ dl.pc = .checked false := by
  cases h with
  | process pc => exact .inr pc
  | markHandled | markHandledLate | earlyStart | early => exact .inl hpc
  | identifyRaises | checkRaises | drop | ran =>
    simp only [finish] at hpc
    split at hpc <;> cases hpc
  | _ => cases hpc

/-- It may run, or runs, and nothing says yet that it counts as handled. -/
def Undecided (dl : Delivery Key Id) : Prop :=
  (dl.pc = .checked false ∨ dl.pc = .running) ∧ Call.claim ∉ dl.calls

omit [DecidableEq Id] in
/-- A delivery that may run holds its lock. -/
theorem Undecided.unsettled (h : dl.Undecided) (hp : dl.Phase) :
    Call.acquire ∈ dl.calls ∧ Call.release ∉ dl.calls := by
  have hpc : dl.pc.Inside := by rcases h.1 with h | h <;> rw [h] <;> trivial
  obtain ⟨r, _, ⟨_, _, calls⟩ | ⟨_, _, _, _, calls, _⟩⟩ := hp.of_inside hpc
  · simp [calls]
  · exact absurd (by simp [calls]) h.2

/-- Where a delivery that may run comes from: it was one, or it has looked the update up. -/
theorem Step.undecided (h : dl.Step handled e a handled' dl') (hp : dl.Phase)
    (hu : dl'.Undecided) : handled' = handled ∧ (dl.Undecided ∨ handled dl.id = false) := by
  have hfinish {r : Release Id} {result : Except Raised (ℕ × ℕ)}
      (h : (dl.finish r result).pc = .checked false ∨ (dl.finish r result).pc = .running) :
      False := by
    rw [Delivery.finish] at h
    split at h <;> rcases h with h | h <;> cases h
  cases h with
  | identifyRaises | checkRaises | drop => exact (hfinish hu.1).elim
  | ran => exact (hfinish hu.1).elim
  | check =>
    rcases hu.1 with h | h
    · exact ⟨rfl, .inr (DeliveryPc.checked.inj h)⟩
    · cases h
  | process pc => exact ⟨rfl, .inl ⟨.inl pc, hu.2⟩⟩
  | markHandled => exact absurd (by simp) hu.2
  | markHandledLate | earlyStart => exact ⟨rfl, .inl hu⟩
  | early rel early step =>
    obtain ⟨_, _, _, calls, _⟩ := hp.of_claimed rel early
    exact absurd (by simp [calls]) hu.2
  | _ => rcases hu.1 with h | h <;> cases h

/-- A delivery comes to count as handled by running, under its lock if it is to be
    coordinated. -/
theorem Step.handled_cases (h : dl.Step handled e a handled' dl') (he : dl.Reliable e)
    (hs : dl.Sound) (hh : dl'.Handled) : dl.Handled ∨ dl.coordinatable = false ∨ dl.Undecided := by
  by_cases hc : Call.claim ∈ dl.calls
  · exact .inl (.inl hc)
  cases h with
  | uncoordinated pc => exact .inr (.inl (hs.coordinated pc))
  | ran pc => exact .inr (.inr ⟨.inr pc, hc⟩)
  | markHandled => exact .inr (.inr ⟨.inr (he.running _ rfl), hc⟩)
  | identifyRaises | checkRaises | drop =>
    rcases hh with h | ⟨result, h, hcount⟩
    · exact .inl (.inl (finish_calls _ ▸ h))
    · exact .inl (.inr ⟨result, (finish_ran _).symm.trans h, hcount⟩)
  | acquire => exact .inl (hh.of_append (by decide))
  | early _ _ step => exact .inl (hh.of_append (by cases step <;> decide))
  | settle _ _ step => exact .inl (hh.of_append (by cases step <;> decide))
  | _ => exact .inl hh

/-- What a step does to the registry: the update is registered, under its lock. -/
theorem Step.registers (h : dl.Step handled e a handled' dl') (hp : dl.Phase) (hs : dl.Sound) :
    handled' = handled ∨ handled' = Function.update handled dl.id true ∧
      Call.acquire ∈ dl.calls ∧ Call.release ∉ dl.calls := by
  cases h with
  | early rel early step =>
    obtain ⟨made, _, _, calls, tail⟩ := hp.of_claimed rel early
    have hrel := made_release tail (settle_made step tail).2.2.2
    cases step with
    | mark known =>
      exact .inr ⟨by rw [hs.own _ _ rel known], by simp [calls], by simp [calls, hrel]⟩
    | _ => exact .inl rfl
  | settle pc rel step =>
    obtain ⟨r, made, _, _, _, calls, tail⟩ := hp.of_settling pc
    have hrel := made_release tail (settle_made step tail).2.2.2
    cases step with
    | mark known =>
      exact .inr ⟨by rw [hs.own _ _ rel known], by simp [calls], by simp [calls, hrel]⟩
    | _ => exact .inl rfl
  | _ => exact .inl rfl

/-- A call to register the update registers it. -/
theorem Step.marks (h : dl.Step handled e a handled' dl') (he : dl.Reliable e) (hs : dl.Sound)
    (hm : Call.mark ∈ dl'.calls) : Call.mark ∈ dl.calls ∨ handled' dl.id = true := by
  cases h with
  | early rel early step =>
    cases step with
    | mark known => exact .inr (by rw [hs.own _ _ rel known, Function.update_self])
    | markFails => exact absurd rfl he.written.1
    | release => exact .inl (by simpa using hm)
  | settle pc rel step =>
    cases step with
    | mark known => exact .inr (by rw [hs.own _ _ rel known, Function.update_self])
    | markFails => exact absurd rfl he.written.2
    | release => exact .inl (by simpa using hm)
  | identifyRaises | checkRaises | drop | ran =>
    exact .inl (by simpa using hm)
  | acquire | markHandled => exact .inl (by simpa using hm)
  | _ => exact .inl hm

end Delivery

/-! ### All deliveries -/

namespace Coordination

/-- What is assumed of the steps: deliveries with equal update ids have equal lock keys,
    the entries of the registry stay, and the events of the deliveries are reliable. -/
structure Reliable (lockKey : Id → Key) (s : State Key Id) (l : Label Key Id) : Prop where
  scope : ∀ d coordinatable key id, l = .start d coordinatable key id → key = lockKey id
  stay : ∀ id, l ≠ .expire id
  events : ∀ d dl e, l = .deliver d e → s.deliveries d = some dl → dl.Reliable e

/-- A delivery of an update whose lock key is that of its update id. -/
theorem Reliable.start {lockKey : Id → Key} {s : State Key Id} {d : ℕ} {coordinatable : Bool}
    {id : Id} : Reliable lockKey s (.start d coordinatable (lockKey id) id) where
  scope _ _ _ _ h := by
    cases h
    rfl
  stay _ := nofun
  events _ _ _ h := absurd h nofun

/-- The other events of a delivery than calls of `mark_handled()`. -/
theorem Reliable.deliver {lockKey : Id → Key} {s : State Key Id} {d : ℕ} {e : DeliveryEvent}
    (setUp : e ≠ .coordinatable false ∧ e ≠ .lock false ∧ e ≠ .acquire none)
    (written : e ≠ .early (.mark false) ∧ e ≠ .settle (.mark false))
    (hm : ∀ answer, e ≠ .markHandled answer) : Reliable lockKey s (.deliver d e) where
  scope _ _ _ _ h := absurd h nofun
  stay _ := nofun
  events _ _ _ h _ := by
    cases h
    exact ⟨setUp, written, fun answer h => absurd h (hm answer)⟩

theorem Reliable.of_acquires {lockKey : Id → Key} {s : State Key Id} {l : Label Key Id} {d : ℕ}
    {id : Id} (h : l.Acquires d (lockKey id) id) : Reliable lockKey s l := by
  cases h with
  | start => exact .start
  | _ => exact .deliver ⟨nofun, nofun, nofun⟩ ⟨nofun, nofun⟩ nofun

/-- What holds of the deliveries together, as long as their steps are reliable. -/
structure State.Once (lockKey : Id → Key) (s : State Key Id) : Prop where
  scope : ∀ d dl, s.deliveries d = some dl → dl.key = lockKey dl.id
  /-- What has been registered is registered. -/
  marked : ∀ d dl, s.deliveries d = some dl → Call.mark ∈ dl.calls → s.handled dl.id = true
  /-- The update of a delivery that may run is not registered. -/
  fresh : ∀ d dl, s.deliveries d = some dl → dl.Undecided → s.handled dl.id = false
  /-- No two deliveries of an update that is to be coordinated count as handled. -/
  unique : ∀ d d' dl dl', s.deliveries d = some dl → s.deliveries d' = some dl' →
    dl.coordinatable = true → dl'.coordinatable = true → dl.id = dl'.id → dl.Handled →
      dl'.Handled → d = d'

variable [DecidableEq Key] [DecidableEq Id] {s s' : State Key Id} {l : Label Key Id} {d : ℕ}
  {dl : Delivery Key Id} {lockKey : Id → Key}

theorem sound_of_reachable (h : (coordinationLts Key Id).ReachableUnder (Reliable lockKey) s)
    (hd : s.deliveries d = some dl) : dl.Sound := by
  refine h.invariant_of_reachable (I := fun s => ∀ d dl, s.deliveries d = some dl → dl.Sound)
    (by rintro _ rfl _ _ hd; exact absurd hd nofun) ?_ d dl hd
  intro s l s' hr ih hl hst d dl hd
  rcases hst.delivery_cases hd with
    ⟨hd, _⟩ | ⟨_, _, _, _, _, rfl, _⟩ | ⟨dl₀, e, a, hd₀, hle, _, step, _⟩
  · exact ih d dl hd
  · exact .of_outside rfl rfl trivial nofun (fun _ => rfl) fun _ => rfl
  · exact step.sound (hl.events d dl₀ e hle hd₀) (phase_of_reachable hr hd₀) (ih d dl₀ hd₀)

/-- The registry only grows. -/
theorem Step.handled_mono (h : Step s l s') (hl : Reliable lockKey s l)
    (hsound : ∀ d dl, s.deliveries d = some dl → dl.Phase ∧ dl.Sound) {id : Id}
    (hid : s.handled id = true) : s'.handled id = true := by
  cases h with
  | start => exact hid
  | deliver found step =>
    obtain ⟨hp, hs⟩ := hsound _ _ found
    rcases step.registers hp hs with h | ⟨h, _⟩
    · exact (congrFun h id).trans hid
    · exact (congrFun h id).trans (by simp [Function.update_apply, hid])
  | expire => exact absurd rfl (hl.stay _)

/-- A step registers no update of a delivery that may run, another one than its own. -/
theorem Step.handled_false {d' : ℕ} {e : DeliveryEvent} (h : Step s (.deliver d' e) s')
    (hr : (coordinationLts Key Id).ReachableUnder (Reliable lockKey) s) (ho : s.Once lockKey)
    (hd : s.deliveries d = some dl) (hu : dl.Undecided) (hne : d' ≠ d) :
    s'.handled dl.id = false := by
  have hfresh := ho.fresh d dl hd hu
  cases h with
  | deliver found step =>
    rcases step.registers (phase_of_reachable hr found) (sound_of_reachable hr found) with
      h | ⟨h, hacq, hrel⟩
    · exact (congrFun h _).trans hfresh
    · refine (congrFun h _).trans ((Function.update_of_ne (fun hid => hne ?_) ..).trans hfresh)
      -- Both deliveries would hold the lock.
      obtain ⟨hacq', hrel'⟩ := hu.unsettled (phase_of_reachable hr hd)
      refine (guards_of_reachable hr).unique (s.holds_eq found hacq hrel) ?_
      rw [s.holds_eq hd hacq' hrel', ho.scope _ _ found, ho.scope _ _ hd, hid]

omit [DecidableEq Key] [DecidableEq Id] in
/-- A delivery that counts as handled, and has not registered the update, holds its lock. -/
theorem unsettled_of_handled (hp : dl.Phase) (hs : dl.Sound) (hc : dl.coordinatable = true)
    (hh : dl.Handled) (hm : Call.mark ∉ dl.calls) :
    Call.acquire ∈ dl.calls ∧ Call.release ∉ dl.calls := by
  refine ⟨?_, fun hrel => hm (hs.marked hh (.inl hrel))⟩
  rcases hh with h | ⟨result, h, _⟩
  · exact hp.calls.2.1.resolve_right fun hnil => by simp [hnil] at h
  · exact hs.locked hc (by rw [h]; exact nofun)

/-- Where a delivery that counts as handled comes from: it did so before, or it ran. -/
theorem Step.handled_from {dl' : Delivery Key Id} (h : Step s l s') (hl : Reliable lockKey s l)
    (hr : (coordinationLts Key Id).ReachableUnder (Reliable lockKey) s)
    (hd : s'.deliveries d = some dl') (hc : dl'.coordinatable = true) (hh : dl'.Handled) :
    ∃ dl, s.deliveries d = some dl ∧ dl.coordinatable = true ∧ dl.id = dl'.id ∧
      (dl.Handled ∨ dl.Undecided ∧ ∃ e, l = .deliver d e) := by
  rcases h.delivery_cases hd with
    ⟨hd, _⟩ | ⟨_, _, _, _, _, rfl, _⟩ | ⟨dl, e, a, hd, hle, _, step, _⟩
  · exact ⟨dl', hd, hc, rfl, .inl hh⟩
  · rcases hh with h | ⟨_, h, _⟩ <;> exact absurd h nofun
  · obtain ⟨_, hid, hco⟩ := step.update_eq
    refine ⟨dl, hd, hco.symm.trans hc, hid.symm, ?_⟩
    rcases step.handled_cases (hl.events d dl e hle hd) (sound_of_reachable hr hd) hh with h | h | h
    · exact .inl h
    · exact absurd (h.symm.trans (hco.symm.trans hc)) nofun
    · exact .inr ⟨h, e, hle⟩

/-- While a delivery may run, no other one of its update counts as handled. -/
theorem State.Once.alone {d' : ℕ} {dl' : Delivery Key Id} (ho : s.Once lockKey)
    (hr : (coordinationLts Key Id).ReachableUnder (Reliable lockKey) s)
    (hd : s.deliveries d = some dl) (hu : dl.Undecided) (hd' : s.deliveries d' = some dl')
    (hc' : dl'.coordinatable = true) (hid : dl.id = dl'.id) (hh' : dl'.Handled) : d = d' := by
  have hm : Call.mark ∉ dl'.calls := fun hm =>
    absurd ((hid ▸ ho.fresh d dl hd hu).symm.trans (ho.marked d' dl' hd' hm)) nofun
  obtain ⟨hacq, hrel⟩ := hu.unsettled (phase_of_reachable hr hd)
  obtain ⟨hacq', hrel'⟩ := unsettled_of_handled (phase_of_reachable hr hd')
    (sound_of_reachable hr hd') hc' hh' hm
  refine (guards_of_reachable hr).unique (s.holds_eq hd hacq hrel) ?_
  rw [s.holds_eq hd' hacq' hrel', ho.scope _ _ hd, ho.scope _ _ hd', hid]

/-- Reliable steps keep the deliveries of an update apart. -/
theorem Step.once (h : Step s l s') (hl : Reliable lockKey s l)
    (hr : (coordinationLts Key Id).ReachableUnder (Reliable lockKey) s) (ho : s.Once lockKey) :
    s'.Once lockKey := by
  have hmono {id : Id} (hid : s.handled id = true) : s'.handled id = true :=
    h.handled_mono hl (fun _ _ hd => ⟨phase_of_reachable hr hd, sound_of_reachable hr hd⟩) hid
  refine ⟨fun d dl hd => ?_, fun d dl hd hm => ?_, fun d dl hd hu => ?_, ?_⟩
  · rcases h.delivery_cases hd with
      ⟨hd, _⟩ | ⟨_, _, _, _, hle, rfl, _⟩ | ⟨dl₀, _, _, hd₀, _, _, step, _⟩
    · exact ho.scope d dl hd
    · exact hl.scope _ _ _ _ hle
    · rw [step.update_eq.1, step.update_eq.2.1]
      exact ho.scope d dl₀ hd₀
  · rcases h.delivery_cases hd with
      ⟨hd, _⟩ | ⟨_, _, _, _, _, rfl, _⟩ | ⟨dl₀, e, _, hd₀, hle, _, step, _⟩
    · exact hmono (ho.marked d dl hd hm)
    · exact absurd hm nofun
    · rw [step.update_eq.2.1]
      rcases step.marks (hl.events d dl₀ e hle hd₀) (sound_of_reachable hr hd₀) hm with hm | hm
      · exact hmono (ho.marked d dl₀ hd₀ hm)
      · exact hm
  · rcases h.delivery_cases hd with
      ⟨hd₀, hne⟩ | ⟨_, _, _, _, _, rfl, _⟩ | ⟨dl₀, e, _, hd₀, _, _, step, _⟩
    · cases h with
      | start => exact ho.fresh d dl hd₀ hu
      | deliver found step enabled =>
        refine (Step.deliver found step enabled).handled_false hr ho hd₀ hu ?_
        rintro rfl
        exact hne _ rfl
      | expire => exact absurd rfl (hl.stay _)
    · rcases hu.1 with h | h <;> exact absurd h nofun
    · rw [step.update_eq.2.1]
      obtain ⟨he, hu | hf⟩ := step.undecided (phase_of_reachable hr hd₀) hu
      · exact he ▸ ho.fresh d dl₀ hd₀ hu
      · exact he ▸ hf
  · intro d d' dl dl' hd hd' hc hc' hid hh hh'
    obtain ⟨dl₁, hd₁, hc₁, hid₁, h₁⟩ := h.handled_from hl hr hd hc hh
    obtain ⟨dl₂, hd₂, hc₂, hid₂, h₂⟩ := h.handled_from hl hr hd' hc' hh'
    have hid : dl₁.id = dl₂.id := hid₁.trans (hid.trans hid₂.symm)
    rcases h₁ with h₁ | ⟨hu₁, e₁, rfl⟩ <;> rcases h₂ with h₂ | ⟨hu₂, e₂, hle⟩
    · exact ho.unique d d' dl₁ dl₂ hd₁ hd₂ hc₁ hc₂ hid h₁ h₂
    · exact (ho.alone hr hd₂ hu₂ hd₁ hc₁ hid.symm h₁).symm
    · exact ho.alone hr hd₁ hu₁ hd₂ hc₂ hid h₂
    · cases hle
      rfl

theorem once_of_reachable (h : (coordinationLts Key Id).ReachableUnder (Reliable lockKey) s) :
    s.Once lockKey := by
  refine h.invariant_of_reachable (I := State.Once lockKey) ?_
    fun _ _ _ hr ho hl hst => Step.once hst hl hr ho
  rintro _ rfl
  exact ⟨fun _ _ h => absurd h nofun, fun _ _ h => absurd h nofun, fun _ _ h => absurd h nofun,
    fun _ _ _ _ h => absurd h nofun⟩

/-- At-most-once processing. No two deliveries of an update to be coordinated have a run
    that counts as handled, and once the update is registered, no run for it starts. -/
theorem processes_at_most_once
    (h : (coordinationLts Key Id).ReachableUnder (Reliable lockKey) s) :
    (∀ d d' dl dl', s.deliveries d = some dl → s.deliveries d' = some dl' →
      dl.coordinatable = true → dl'.coordinatable = true → dl.id = dl'.id →
        dl.Handled → dl'.Handled → d = d') ∧
    ∀ id, s.handled id = true → ∀ s₁ s₂ l,
      (coordinationLts Key Id).RunUnder (Reliable lockKey) s s₁ → Reliable lockKey s₁ l →
      Step s₁ l s₂ → ∀ d dl dl', s₁.deliveries d = some dl → s₂.deliveries d = some dl' →
        dl.coordinatable = true → dl.id = id → dl'.Running → dl.Running := by
  refine ⟨(once_of_reachable h).unique, ?_⟩
  rintro _ hid s₁ s₂ l hrun hl hst d dl dl' hd hd' hc rfl hrunning
  -- The update is still registered.
  obtain ⟨hr, hid⟩ := hrun.invariant (I := fun s => (coordinationLts Key Id).ReachableUnder
    (Reliable lockKey) s ∧ s.handled dl.id = true) ⟨h, hid⟩ fun s l s' ⟨hr, hid⟩ hl hst =>
      ⟨hr.tail hl hst, Step.handled_mono hst hl
        (fun _ _ hd => ⟨phase_of_reachable hr hd, sound_of_reachable hr hd⟩) hid⟩
  rcases hst.delivery_cases hd' with
    ⟨hd₀, _⟩ | ⟨_, _, _, hnew, _⟩ | ⟨dl₀, e, _, hd₀, hle, _, step, _⟩
  · exact Option.some.inj (hd.symm.trans hd₀) ▸ hrunning
  · exact absurd (hd.symm.trans hnew) nofun
  · obtain rfl := Option.some.inj (hd.symm.trans hd₀)
    rcases hrunning with hpc | hpc
    · rcases step.running hpc with hpc | hpc
      · exact .inl hpc
      · have hcl := (sound_of_reachable hr hd).unclaimed (by rw [hpc]; trivial)
          (by rw [hpc]; exact nofun)
        have hfresh := (once_of_reachable hr).fresh d dl hd ⟨.inl hpc, hcl⟩
        exact absurd (hfresh.symm.trans hid) nofun
    · have := (sound_of_reachable (hr.tail hl hst) hd').coordinated hpc
      exact absurd (this.symm.trans (step.update_eq.2.2.trans hc)) nofun

/-- An update is delivered twice. The first delivery handles it, and the second one, which
    has acquired the lock after it, does not. -/
theorem processes_at_most_once_twice : ∃ (s : State ℕ ℕ) (dl dl' : Delivery ℕ ℕ),
    (coordinationLts ℕ ℕ).ReachableUnder (Reliable fun _ => 100) s ∧
      s.deliveries 0 = some dl ∧ s.deliveries 1 = some dl' ∧ dl.coordinatable = true ∧
      dl'.coordinatable = true ∧ dl.id = dl'.id ∧ dl.Handled ∧ s.locked 100 = true ∧
      ¬dl'.Handled := by
  have h₀ : (coordinationLts ℕ ℕ).ReachableUnder (Reliable fun _ => 100) (.init ..) := .init rfl
  have h₁ := h₀.run (run_acquires 0 100 5 (fun _ _ hl => .of_acquires hl) rfl rfl)
  have h₂ := h₁.tail (by exact .deliver ⟨nofun, nofun, nofun⟩ ⟨nofun, nofun⟩ nofun)
    (.deliver (d := 0) rfl (.identify rfl rfl) trivial)
  have h₃ := h₂.tail (by exact .deliver ⟨nofun, nofun, nofun⟩ ⟨nofun, nofun⟩ nofun)
    (.deliver (d := 0) rfl (.check rfl) trivial)
  have h₄ := h₃.tail (by exact .deliver ⟨nofun, nofun, nofun⟩ ⟨nofun, nofun⟩ nofun)
    (.deliver (d := 0) rfl (.process rfl) trivial)
  have h₅ := h₄.tail (l := Label.deliver 0 (.ran (.ok (1, 0))))
    (.deliver ⟨nofun, nofun, nofun⟩ ⟨nofun, nofun⟩ nofun) (.deliver rfl (.ran rfl rfl) trivial)
  have h₆ := h₅.tail (by exact .deliver ⟨nofun, nofun, nofun⟩ ⟨nofun, nofun⟩ nofun)
    (.deliver (d := 0) rfl (.settle rfl rfl (.mark rfl)) trivial)
  have h₇ := h₆.tail (by exact .deliver ⟨nofun, nofun, nofun⟩ ⟨nofun, nofun⟩ nofun)
    (.deliver (d := 0) rfl (.settle rfl rfl .release) trivial)
  -- The update is delivered again.
  have h₈ := h₇.run (run_acquires 1 100 5 (fun _ _ hl => .of_acquires hl) rfl rfl)
  obtain ⟨s, h, dl, dl', hd, hd', hc, hc', hid, hh, hlocked⟩ : ∃ s : State ℕ ℕ,
      (coordinationLts ℕ ℕ).ReachableUnder (Reliable fun _ => 100) s ∧ ∃ dl dl',
        s.deliveries 0 = some dl ∧ s.deliveries 1 = some dl' ∧ dl.coordinatable = true ∧
        dl'.coordinatable = true ∧ dl.id = dl'.id ∧ dl.Handled ∧ s.locked 100 = true :=
    ⟨_, h₈, _, _, rfl, rfl, rfl, rfl, rfl, .inr ⟨_, rfl, rfl⟩, rfl⟩
  refine ⟨s, dl, dl', h, hd, hd', hc, hc', hid, hh, hlocked, fun hh' => ?_⟩
  exact absurd ((processes_at_most_once h).1 0 1 dl dl' hd hd' hc hc' hid hh hh') nofun

end Coordination

end Pyroflow
