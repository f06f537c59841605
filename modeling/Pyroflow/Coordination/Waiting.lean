import Mathlib.Algebra.BigOperators.Group.Finset.Basic
import Mathlib.Algebra.Order.BigOperators.Group.Finset
import Pyroflow.Coordination.Locks
import Pyroflow.Lib.Rest

/-!
# Waiting for a lock

The deliveries of one process that wait for the lock of a key are served in the order they
came (`serves_in_order`), and none waits forever, unless a handler runs forever: however the
deliveries under way take turns, and whatever fails, they all come to their end, and those
whose timer has not fired get their lock before (`deliveries_come_to_rest`).
-/

namespace Pyroflow

open Dispatcher

variable {Key Id : Type}

/-! ### The steps of a delivery to its end -/

/-- How many steps a settlement has to take. -/
def SettlePc.toGo : SettlePc → ℕ
  | .scheduled => 3
  | .marking => 2
  | .releasing => 1
  | .done => 0

/-- How many steps `handle_update` has to take, at most. Until it has acquired the lock, it has
    more to take than after. -/
def DeliveryPc.toGo : DeliveryPc → ℕ
  | .coordinatable => 22
  | .locking => 21
  | .acquiring => 20
  | .identifying => 9
  | .checking => 8
  | .checked _ => 7
  | .running => 6
  | .settling sp _ => sp.toGo + 1
  | .uncoordinated | .awaiting _ => 1
  | .ended _ => 0

namespace Delivery

/-- How many steps a delivery has to take, with those of the early settlement. -/
def toGo (dl : Delivery Key Id) : ℕ :=
  dl.pc.toGo + ((dl.release.bind Release.early).map SettlePc.toGo).getD 0

/-- A settlement that is to register the update knows it. -/
def Known (dl : Delivery Key Id) : Prop :=
  ∀ r, dl.release = some r →
    r.early = some .marking ∨ (∃ o, dl.pc = .settling .marking o) → r.updateId.isSome = true

variable {dl dl' : Delivery Key Id} {r : Release Id} {handled handled' : Id → Bool}
  {e : DeliveryEvent} {a : Mutex.Action Key}

@[simp] theorem settle_updateId (counts : Bool) : (r.settle counts).1.updateId = r.updateId := by
  rw [Release.settle]
  split <;> rfl

@[simp] theorem settle_early (counts : Bool) : (r.settle counts).1.early = r.early := by
  rw [Release.settle]
  split <;> rfl

/-- Only a settlement that knows the update goes for the registry. -/
theorem isSome_of_settle {counts : Bool} (h : (r.settle counts).2 = .marking) :
    r.updateId.isSome = true := by
  rw [Release.settle] at h
  split at h
  · cases h
  · by_contra hn
    rw [if_neg (by simp [hn])] at h
    cases h

/-- The `try` block ends. -/
theorem Known.finish (h : dl.Known) (hr : dl.release = some r) (result : Except Raised (ℕ × ℕ))
    {ran : Option (Except Raised (ℕ × ℕ))} : Known { dl.finish r result with ran := ran } := by
  rw [Delivery.finish]
  split
  case isTrue he =>
    rintro r₁ hr₁ (h₁ | ⟨o, h₁⟩)
    · exact h r₁ hr₁ (.inl h₁)
    · cases h₁
  case isFalse he =>
    rintro r₁ hr₁ h₁
    obtain rfl := Option.some.inj hr₁
    rw [settle_updateId]
    rw [settle_early] at h₁
    rcases h₁ with h₁ | ⟨o, h₁⟩
    · exact h r hr (.inl h₁)
    · exact isSome_of_settle (DeliveryPc.settling.inj h₁).1

variable [DecidableEq Id]

/-- A settlement has gone for the registry before it releases the lock. -/
theorem ne_marking_of_step {key : Key} {updateId : Option Id} {sp sp' : SettlePc} {ev : SettleEvent}
    {call : Call} (h : sp.Step key updateId handled ev call a handled' sp') : sp' ≠ .marking := by
  cases h <;> exact nofun

theorem Step.known (h : dl.Step handled e a handled' dl') (hk : dl.Known) : dl'.Known := by
  cases h with
  | acquire =>
    rintro r ⟨⟩ (h | ⟨o, h⟩) <;> cases h
  | identify =>
    rintro r ⟨⟩ -
    rfl
  | identifyRaises _ rel | checkRaises _ rel | drop _ rel => exact hk.finish rel _
  | ran _ rel => exact hk.finish rel _
  | markHandled rel claimed =>
    obtain ⟨-, -, rfl⟩ := claimEarly_eq_some claimed
    rintro r ⟨⟩ (h | h)
    · cases h
    · have hknown := hk _ rel (.inr h)
      exact hknown
  | earlyStart rel early =>
    rintro r ⟨⟩ (h | h)
    · exact (settle_updateId true).symm ▸ isSome_of_settle (Option.some.inj h)
    · exact (settle_updateId true).symm ▸ hk _ rel (.inr h)
  | early rel early step =>
    rintro r ⟨⟩ (h | h)
    · exact absurd (Option.some.inj h) (ne_marking_of_step step)
    · have hknown := hk _ rel (.inr h)
      exact hknown
  | settle pc rel step =>
    rintro r hr (h | ⟨o, h⟩)
    · exact hk r hr (.inl h)
    · exact absurd (DeliveryPc.settling.inj h).1 (ne_marking_of_step step)
  | markHandledLate => exact hk
  | _ =>
    rintro r hr (h | ⟨o, h⟩)
    · exact hk r hr (.inl h)
    · cases h

omit [DecidableEq Id] in
theorem toGo_settle (counts : Bool) : (r.settle counts).2.toGo < 3 := by
  rw [Release.settle]
  split
  · exact Nat.zero_lt_succ 2
  · dsimp only
    split <;> decide

theorem toGo_lt_of_settle {key : Key} {updateId : Option Id} {sp sp' : SettlePc}
    {ev : SettleEvent} {call : Call} (h : sp.Step key updateId handled ev call a handled' sp') :
    sp'.toGo < sp.toGo := by
  cases h <;> decide

omit [DecidableEq Id] in
theorem toGo_finish (hpc : 6 ≤ dl.pc.toGo) (result : Except Raised (ℕ × ℕ))
    (ran : Option (Except Raised (ℕ × ℕ))) :
    toGo { dl.finish r result with ran := ran } < dl.toGo := by
  rw [Delivery.finish]
  split
  case isTrue he =>
    have hone : (DeliveryPc.awaiting (outcomeOf result)).toGo = 1 := rfl
    simp only [toGo, hone]
    omega
  case isFalse he =>
    have hearly : r.early = none := by simpa using he
    have hlt := toGo_settle (r := r) (countsAsHandled result)
    have hsettling : (DeliveryPc.settling (r.settle (countsAsHandled result)).2
        (outcomeOf result)).toGo = (r.settle (countsAsHandled result)).2.toGo + 1 := rfl
    simp only [toGo, hsettling, Option.bind_some, settle_early, hearly, Option.map_none,
      Option.getD_none]
    omega

/-- A delivery has less to do after a step, if it is not a call of `mark_handled()`. -/
theorem Step.toGo_lt (h : dl.Step handled e a handled' dl')
    (he : ∀ answer, e ≠ .markHandled answer) :
    dl'.toGo < dl.toGo := by
  cases h with
  | markHandled | markHandledLate => exact absurd rfl (he _)
  | identifyRaises pc | checkRaises pc | drop pc | ran pc =>
    exact toGo_finish (by rw [pc]; decide) _ _
  | acquire pc =>
    have hnew : (Release.new : Release Id).early = none := rfl
    simp only [toGo, pc, DeliveryPc.toGo, Option.bind_some, hnew, Option.map_none, Option.getD_none]
    omega
  | identify pc rel => simp [toGo, pc, DeliveryPc.toGo, rel]
  | @earlyStart r rel early =>
    have hlt := toGo_settle (r := r) true
    have hthree : SettlePc.scheduled.toGo = 3 := rfl
    simp only [toGo, rel, early, Option.bind_some, Option.map_some, Option.getD_some, hthree]
    exact Nat.add_lt_add_left hlt _
  | early rel early step =>
    simpa [toGo, rel, early] using toGo_lt_of_settle step
  | settle pc rel step =>
    simpa [toGo, pc, DeliveryPc.toGo] using toGo_lt_of_settle step
  | _ pc => simp [toGo, pc, DeliveryPc.toGo]

variable (handled) in
/-- A settlement goes on. -/
theorem exists_settle (key : Key) {updateId : Option Id} {sp : SettlePc}
    (hs : sp ≠ .scheduled) (hd : sp ≠ .done) (hk : sp = .marking → updateId.isSome = true) :
    ∃ ev call a handled' sp', sp.Step key updateId handled ev call a handled' sp' := by
  cases sp with
  | scheduled => exact absurd rfl hs
  | marking =>
    obtain ⟨id, hid⟩ := Option.isSome_iff_exists.1 (hk rfl)
    exact ⟨_, _, _, _, _, .mark hid⟩
  | releasing => exact ⟨_, _, _, _, _, .release⟩
  | done => exact absurd rfl hd

variable (handled) in
/-- A delivery that has not ended, and does not wait for its lock, goes on. -/
theorem exists_step (hp : dl.Phase) (hk : dl.Known) (hpc : dl.pc ≠ .acquiring)
    (hend : ∀ o, dl.pc ≠ .ended o) : ∃ e a handled' dl', dl.Step handled e a handled' dl' ∧
      (∀ answer, e ≠ .acquire answer) ∧ ∀ answer, e ≠ .markHandled answer := by
  cases h : dl.pc with
  | acquiring => exact absurd h hpc
  | ended o => exact absurd h (hend o)
  | coordinatable =>
    cases hc : dl.coordinatable with
    | true => exact ⟨_, _, _, _, .coordinatable h hc, nofun, nofun⟩
    | false => exact ⟨_, _, _, _, .notCoordinatable h hc, nofun, nofun⟩
  | locking => exact ⟨_, _, _, _, .lock h, nofun, nofun⟩
  | uncoordinated => exact ⟨.ran (.ok (0, 0)), _, _, _, .uncoordinated h, nofun, nofun⟩
  | identifying =>
    obtain ⟨r, rel, -⟩ := hp.of_inside (by rw [h]; trivial)
    exact ⟨_, _, _, _, .identify h rel, nofun, nofun⟩
  | checking => exact ⟨_, _, _, _, .check h, nofun, nofun⟩
  | checked b =>
    cases b with
    | true =>
      obtain ⟨r, rel, -⟩ := hp.of_inside (by rw [h]; trivial)
      exact ⟨_, _, _, _, .drop h rel, nofun, nofun⟩
    | false => exact ⟨_, _, _, _, .process h, nofun, nofun⟩
  | running =>
    obtain ⟨r, rel, -⟩ := hp.of_inside (by rw [h]; trivial)
    exact ⟨.ran (.ok (0, 0)), _, _, _, .ran h rel, nofun, nofun⟩
  | settling sp o =>
    obtain ⟨r, hrel, hearly, hstarted⟩ :
        ∃ r, dl.release = some r ∧ r.early = none ∧ sp ≠ .scheduled := by
      cases hp with
      | settling rel early _ started pc =>
        rcases pc with pc | ⟨pc, -⟩
        · exact ⟨_, rel, early, (DeliveryPc.settling.inj (h.symm.trans pc)).1 ▸ started⟩
        · exact absurd (h.symm.trans pc) nofun
      | outside _ pc | inside _ _ _ pc => exact (h ▸ pc).elim
      | claimed _ _ _ pc => rcases pc with pc | ⟨_, pc⟩ | ⟨_, pc, -⟩ <;> simp [h, DeliveryPc.Inside] at pc
    by_cases hd : sp = .done
    · subst hd
      exact ⟨_, _, _, _, .settled h, nofun, nofun⟩
    · obtain ⟨ev, call, a, handled', sp', step⟩ := exists_settle handled dl.key
        hstarted hd fun hm => hk r hrel (.inr ⟨o, hm ▸ h⟩)
      exact ⟨.settle ev, _, _, _, .settle h hrel step, nofun, nofun⟩
  | awaiting o =>
    obtain ⟨r, sp, hrel, hearly⟩ : ∃ r sp, dl.release = some r ∧ r.early = some sp := by
      cases hp with
      | claimed rel early => exact ⟨_, _, rel, early⟩
      | outside _ pc | inside _ _ _ pc => exact (h ▸ pc).elim
      | settling _ _ _ _ pc => rcases pc with pc | ⟨pc, -⟩ <;> simp [h] at pc
    by_cases hd : sp = .done
    · subst hd
      exact ⟨_, _, _, _, .awaited h hrel hearly, nofun, nofun⟩
    · by_cases hs : sp = .scheduled
      · subst hs
        exact ⟨_, _, _, _, .earlyStart hrel hearly, nofun, nofun⟩
      · obtain ⟨ev, call, a, handled', sp', step⟩ := exists_settle handled dl.key
          hs hd fun hm => hk r hrel (.inl (hm ▸ hearly))
        exact ⟨.early ev, _, _, _, .early hrel hearly step, nofun, nofun⟩

omit [DecidableEq Id] in
/-- A delivery that has a release is past the acquisition. -/
theorem Phase.past (hp : dl.Phase) (hr : dl.release = some r) :
    dl.pc ≠ .coordinatable ∧ dl.pc ≠ .locking ∧ dl.pc ≠ .acquiring := by
  refine ⟨fun h => ?_, fun h => ?_, fun h => ?_⟩ <;>
  · have hnone := (hp.of_outside (by rw [h]; trivial) (by rw [h]; exact nofun)).1
    exact absurd (hnone.symm.trans hr) nofun

omit [DecidableEq Id] in
/-- So is one whose group has run, or will not. -/
theorem past_finish (r : Release Id) (result : Except Raised (ℕ × ℕ)) :
    (dl.finish r result).pc ≠ .coordinatable ∧ (dl.finish r result).pc ≠ .locking ∧
      (dl.finish r result).pc ≠ .acquiring := by
  rw [Delivery.finish]
  split <;> simp

end Delivery

namespace Coordination

/-! ### Where a delivery is with its lock -/

/-- A delivery gets the lock before it asks for it, and waits for it in `acquire()` only. -/
structure Placed (dl : Delivery Key Id) (p : LockPoint Key) : Prop where
  early : dl.pc = .coordinatable ∨ dl.pc = .locking → p = .idle
  acquiring : dl.pc = .acquiring → ∃ obj, p = .has dl.key obj ∨ ∃ n, p = .waiting dl.key obj n
  waiting : ∀ k obj n, p = .waiting k obj n → dl.pc = .acquiring
  known : dl.Known

variable [DecidableEq Key] [DecidableEq Id] {d : ℕ} {dl dl' : Delivery Key Id} {e : DeliveryEvent}
  {a : Mutex.Action Key} {handled handled' : Id → Bool} {ls ls' : KeyedLocks Key ℕ}
  {s s' : MemoryState Key Id} {l : MemoryLabel Key Id} {p : LockPoint Key}

omit [DecidableEq Key] [DecidableEq Id] in
/-- Where a delivery neither has to get its lock nor waits for it. -/
theorem Placed.of_past (hpc : dl.pc ≠ .coordinatable ∧ dl.pc ≠ .locking ∧ dl.pc ≠ .acquiring)
    (hp : ∀ k obj n, p ≠ .waiting k obj n) (hk : dl.Known) : Placed dl p where
  early h := (h.elim hpc.1 hpc.2.1).elim
  acquiring h := absurd h hpc.2.2
  waiting k obj n h := absurd h (hp k obj n)
  known := hk

theorem Uses.placed (hu : Uses d dl.key e ls ls') (hst : dl.Step handled e a handled' dl')
    (hp : dl.Phase) (hpl : Placed dl (ls.points d)) : Placed dl' (ls'.points d) := by
  have hk := hst.known hpl.known
  have hp' := hst.phase hp
  cases hu with
  | get step =>
    cases hst with
    | lock pc =>
      refine ⟨nofun, fun _ => ?_, fun _ _ _ _ => rfl, hk⟩
      cases step with
      | get | make => exact ⟨_, .inl (Function.update_self ..)⟩
  | take step hold | resume step hold =>
    cases hst with
    | acquire => exact .of_past ⟨nofun, nofun, nofun⟩ (by rw [hold]; exact nofun) hk
  | giveUp step has =>
    cases hst with
    | timeout => exact .of_past ⟨nofun, nofun, nofun⟩ (by rw [has]; exact nofun) hk
  | late has =>
    cases hst with
    | timeout => exact .of_past ⟨nofun, nofun, nofun⟩ (by rw [has]; exact nofun) hk
  | early step =>
    cases hst with
    | early rel early estep =>
      refine .of_past (hp'.past rfl) ?_ hk
      cases step with
      | release => simp
  | settle step =>
    cases hst with
    | settle pc rel sstep =>
      refine .of_past ⟨nofun, nofun, nofun⟩ ?_ hk
      cases step with
      | release => simp
  | quiet lock acquire early settle =>
    have hwait : dl.pc ≠ .acquiring → ∀ k obj n, ls.points d ≠ .waiting k obj n :=
      fun h k obj n hpt => h (hpl.waiting k obj n hpt)
    cases hst with
    | coordinatable pc => exact ⟨fun _ => hpl.early (.inl pc), nofun, fun k obj n h =>
        absurd (pc.symm.trans (hpl.waiting k obj n h)) nofun, hk⟩
    | lock => exact absurd rfl lock
    | acquire | timeout | acquireRaises => exact absurd rfl (acquire _)
    | markHandled | markHandledLate | earlyStart | early =>
      exact ⟨hpl.early, hpl.acquiring, hpl.waiting, hk⟩
    | identifyRaises pc | checkRaises pc | drop pc | ran pc =>
      refine .of_past ?_ (hwait (by rw [pc]; exact nofun)) hk
      exact Delivery.past_finish _ _
    | _ pc => exact .of_past ⟨nofun, nofun, nofun⟩ (hwait (by rw [pc]; exact nofun)) hk

/-- The deliveries and the locks, and where each delivery is. -/
structure MemoryState.Sound (s : MemoryState Key Id) : Prop where
  agrees : s.Agrees
  phase : ∀ d dl, s.deliveries d = some dl → dl.Phase
  placed : ∀ d dl, s.deliveries d = some dl → Placed dl (s.locks.points d)

/-- The steps keep the deliveries where they are with their locks. -/
theorem MemoryStep.placed (h : MemoryStep s l s') (hs : s.Sound) (hs' : s'.Agrees) :
    ∀ d dl, s'.deliveries d = some dl → Placed dl (s'.locks.points d) := by
  -- The lock changes for one delivery only, which does not.
  have hsame : ∀ {locks : KeyedLocks Key ℕ} {lb : KeyedLocks.Label Key ℕ} {d₀},
      s.locks.Step lb locks → lb.actor = some d₀ → (∀ o, lb ≠ .release o) →
      (∀ dl, s.deliveries d₀ = some dl → Placed dl (s.locks.points d₀) →
        Placed dl (locks.points d₀)) →
      ∀ d dl, s.deliveries d = some dl → Placed dl (locks.points d) := by
    intro locks lb d₀ step hlb hrel h₀ d dl hd
    by_cases hdd : d = d₀
    · subst hdd
      exact h₀ dl hd (hs.placed d dl hd)
    · obtain ⟨a, ha⟩ := step.action hs.agrees.inv fun o ho => absurd ho (hrel o)
      rw [ha.frame d (by rw [hlb, ne_eq, Option.some.injEq]; exact Ne.symm hdd)]
      exact hs.placed d dl hd
  cases h with
  | @start d₀ coordinatable key id new =>
    intro d dl hd
    by_cases hdd : d = d₀
    · subst hdd
      simp only [Function.update_self, Option.some.injEq] at hd
      subst hd
      simp only [hs.agrees.idle d new]
      exact ⟨fun _ => rfl, nofun, nofun, nofun⟩
    · simp only [Function.update_of_ne hdd] at hd
      exact hs.placed d dl hd
  | @deliver d₀ dl₀ e a handled dl' locks found step uses =>
    intro d dl hd
    have hp := hs.phase _ _ found
    have hlinks := uses.links step hp (hs.agrees.linked _ _ found) hs.agrees.inv
    by_cases hdd : d = d₀
    · subst hdd
      simp only [Function.update_self, Option.some.injEq] at hd
      exact hd ▸ uses.placed step hp (hs.placed d dl₀ found)
    · simp only [Function.update_of_ne hdd] at hd ⊢
      exact hlinks.frame d hdd ▸ hs.placed d dl hd
  | expire => exact hs.placed
  | @wait d₀ dl₀ locks k obj n found pc step waits =>
    refine hsame step rfl nofun fun dl hd hpl => ?_
    obtain rfl := Option.some.inj (found.symm.trans hd)
    have hkey := (hs'.linked d₀ dl₀ found).key k obj (by rw [waits]; rfl)
    exact ⟨fun h => by rcases h with h | h <;> exact absurd (pc.symm.trans h) nofun,
      fun _ => ⟨obj, .inr ⟨n, hkey ▸ waits⟩⟩, fun _ _ _ _ => pc, hpl.known⟩
  | @timer d₀ locks step =>
    refine hsame step rfl nofun fun dl hd hpl => ?_
    cases step with
    | cancel waits =>
      rw [KeyedLocks.set_points, ← waits, Function.update_eq_self]
      exact hpl
  | @drop d₀ dl₀ o locks found pc step =>
    refine hsame step rfl nofun fun dl hd hpl => ?_
    obtain rfl := Option.some.inj (found.symm.trans hd)
    refine .of_past (by rw [pc]; exact ⟨nofun, nofun, nofun⟩) ?_ hpl.known
    cases step with
    | drop => simp
  | @collect k locks step =>
    intro d dl hd
    have hown : s.locks.Owned (.collect k) := nofun
    obtain ⟨a, ha⟩ := step.action hs.agrees.inv hown
    exact (ha.frame d nofun).symm ▸ hs.placed d dl hd

theorem agrees_of_run (h : (memoryLts Key Id).Reachable s) :
    s.Agrees ∧ ∀ d dl, s.deliveries d = some dl → dl.Phase := by
  obtain ⟨hs, hr⟩ := agrees_of_reachable (P := fun _ _ => True) (h.mono fun _ _ _ _ _ => trivial)
  exact ⟨hs, fun d dl hd => phase_of_reachable hr hd⟩

theorem memory_sound_of_reachable (h : (memoryLts Key Id).Reachable s) : s.Sound := by
  refine ⟨(agrees_of_run h).1, (agrees_of_run h).2, ?_⟩
  refine h.invariant_of_reachable
    (I := fun s => ∀ d dl, s.deliveries d = some dl → Placed dl (s.locks.points d)) ?_ ?_
  · rintro _ rfl _ _ hd
    exact absurd hd nofun
  · intro s l s' hr hpl _ hst
    have hs' := (agrees_of_run (hr.tail trivial hst)).1
    exact MemoryStep.placed hst ⟨(agrees_of_run hr).1, (agrees_of_run hr).2, hpl⟩ hs'

/-! ### In the order they came -/

/-- In a run of the deliveries, who releases a lock holds it. -/
theorem run_locks (h : (memoryLts Key Id).Reachable s) (hr : (memoryLts Key Id).Run s s') :
    (KeyedLocks.keyedLocksLts Key ℕ).RunUnder KeyedLocks.Owned s.locks s'.locks := by
  have hinv := hr.invariant (I := fun s₁ => (memoryLts Key Id).Reachable s₁ ∧
    (KeyedLocks.keyedLocksLts Key ℕ).RunUnder KeyedLocks.Owned s.locks s₁.locks) ⟨h, .refl⟩ ?_
  · exact hinv.2
  · rintro s₁ l s₂ ⟨h₁, hr₁⟩ - (hst : MemoryStep s₁ l s₂)
    obtain ⟨ha, hp⟩ := agrees_of_run h₁
    refine ⟨h₁.tail trivial hst, ?_⟩
    obtain heq | ⟨lb, hown, hstep⟩ := (hst.simulates ha hp).2.2.2
    · exact heq ▸ hr₁
    · exact hr₁.tail hown hstep

omit [DecidableEq Key] [DecidableEq Id] in
/-- What a delivery holds is the lock object it refers to. -/
theorem MemoryState.Agrees.holds_iff {k : Key} (hs : s.Agrees) :
    s.abs.holds d = some k ↔ ∃ obj, s.locks.points d = .holding k obj := by
  rw [← LockPoint.heldKey_eq_some_iff]
  cases hd : s.deliveries d with
  | none => simp [hs.idle d hd, State.holds, MemoryState.abs, hd]
  | some dl => simp [(hs.linked d dl hd).holds, State.holds, MemoryState.abs, hd]

/-- The updates of one scope are processed in the order they came to the lock. As long as a
    delivery waits for it, and its timer has not fired, those that come to hold the lock are
    those that waited before it, and they take it as often as there were, at most. -/
theorem serves_in_order {k : Key} {obj n : ℕ} (h : (memoryLts Key Id).Reachable s)
    (hw : s.locks.points d = .waiting k obj n) (hr : (memoryLts Key Id).Run s s')
    (hw' : s'.locks.points d = .waiting k obj n)
    (hc : (d, .cancelled) ∉ (s'.locks.objects obj).waiters) :
    (∀ d', s'.abs.holds d' = some k →
      s.abs.holds d' = some k ∨ ∃ n' < n, s.locks.points d' = .waiting k obj n') ∧
    s'.locks.grants obj + s'.locks.ahead obj n ≤ s.locks.grants obj + s.locks.ahead obj n := by
  have hs := (agrees_of_run h).1
  have hs' := (agrees_of_run (h.run hr)).1
  have hlocks := run_locks h hr
  refine ⟨fun d' hold => ?_, KeyedLocks.grants_add_ahead_le hs.inv hw hlocks hw' hc⟩
  obtain ⟨obj', hpt⟩ := hs'.holds_iff.1 hold
  -- It is the lock the delivery waits for.
  have h₁ := hs'.inv.refs d k obj (by rw [hw']; rfl)
  have h₂ := hs'.inv.refs d' k obj' (by rw [hpt]; rfl)
  obtain rfl : obj = obj' := Option.some.inj (h₁.symm.trans h₂)
  refine (KeyedLocks.not_overtaken hs.inv hw hlocks hw' hc hpt).imp_left fun hold₀ => ?_
  exact hs.holds_iff.2 ⟨obj, hold₀⟩

/-- Another update arrives as one waits. -/
theorem serves_in_order_waiting : ∃ s s' : MemoryState ℕ ℕ, (memoryLts ℕ ℕ).Reachable s ∧
    s.locks.points 1 = .waiting 7 0 0 ∧ (memoryLts ℕ ℕ).Run s s' ∧
      s'.deliveries 2 ≠ none ∧ s'.abs.holds 2 ≠ some 7 ∧
        s'.locks.grants 0 + s'.locks.ahead 0 0 ≤ s.locks.grants 0 + s.locks.ahead 0 0 := by
  obtain ⟨s, hr, -, hnew, hold, hw, hwaiters⟩ := reachable_waiting
  have hreach : (memoryLts ℕ ℕ).Reachable s := hr.mono fun _ _ _ => trivial
  have hrun : (memoryLts ℕ ℕ).Run s _ :=
    .tail (l := MemoryLabel.start 2 true 7 3) .refl trivial (.start hnew)
  have hserves := serves_in_order hreach hw hrun hw (by simp [hwaiters])
  refine ⟨s, _, hreach, hw, hrun, by simp, fun h2 => ?_, hserves.2⟩
  have hfirst := hserves.1 2 h2
  simp [State.holds, MemoryState.abs, hnew] at hfirst

/-! ### To the end -/

/-- The steps of the deliveries that are under way, and the collection of the locks they have
    dropped: no timer fires, and `mark_handled()` is not called. -/
def Proceeds (s : MemoryState Key Id) : MemoryLabel Key Id → Prop
  | .deliver d e => (∀ answer, e ≠ .markHandled answer) ∧
      (e = .acquire (some false) → ∃ k obj n, s.locks.points d = .waiting k obj n)
  | .wait _ | .drop _ | .collect _ => True
  | .start .. | .timer _ | .expire _ => False

/-- The timer of a delivery has fired. -/
def MemoryState.TimedOut (s : MemoryState Key Id) (d : ℕ) : Prop :=
  ∃ obj f, LockFuture.IsCancelled f ∧ (d, f) ∈ (s.locks.objects obj).waiters

/-- The step of the locks an event is. -/
theorem Uses.step_cases {key : Key} (hu : Uses d key e ls ls') : ls' = ls ∨
    ∃ lb, (∀ o, lb ≠ .cancel o) ∧ (∀ o k, lb = .get o k → k = key) ∧ ls.Step lb ls' := by
  cases hu with
  | get step =>
    refine .inr ⟨_, ?_, ?_, step⟩
    · exact nofun
    · rintro o k ⟨⟩
      rfl
  | take step | resume step | giveUp step | early step | settle step =>
    refine .inr ⟨_, ?_, ?_, step⟩
    · exact nofun
    · exact nofun
  | late | quiet => exact .inl rfl

/-- No timer fires. -/
theorem MemoryStep.timedOut (h : MemoryStep s l s') (hp : Proceeds s l) (ht : s'.TimedOut d) :
    s.TimedOut d := by
  obtain ⟨obj, f, hf, hmem⟩ := ht
  refine ⟨obj, f, hf, ?_⟩
  cases h with
  | start | timer | expire => exact hp.elim
  | deliver found step uses =>
    obtain rfl | ⟨lb, hlb, -, step⟩ := uses.step_cases
    · exact hmem
    · exact step.mem_of_cancelled hlb hf hmem
  | wait found pc step | drop found pc step | collect step =>
    exact step.mem_of_cancelled nofun hf hmem

/-! ### What is left to do -/

/-- A delivery that refers to a lock it neither holds nor waits for has to ask for it, or to drop
    it. -/
def pointToGo : LockPoint Key → ℕ
  | .has .. => 1
  | _ => 0

/-- How much a delivery has to do, with its lock. A lock made for it has to be collected. -/
def MemoryState.toGo (s : MemoryState Key Id) (d : ℕ) : ℕ :=
  3 * ((s.deliveries d).map Delivery.toGo).getD 0 + pointToGo (s.locks.points d)

/-- All deliveries and locks are among these. -/
structure MemoryState.Bounded (s : MemoryState Key Id) (n : ℕ) (ks : Finset Key) : Prop where
  deliveries : ∀ d dl, s.deliveries d = some dl → d < n ∧ dl.key ∈ ks
  locks : ∀ k, s.locks.dict k ≠ none → k ∈ ks

/-- What is left to do. -/
def MemoryState.left (s : MemoryState Key Id) (n : ℕ) (ks : Finset Key) : ℕ :=
  ∑ d ∈ Finset.range n, s.toGo d + KeyedLocks.present s.locks.dict ks

variable {n : ℕ} {ks : Finset Key}

theorem MemoryStep.bounded (h : MemoryStep s l s') (hb : s.Bounded n ks)
    (hl : ∀ d coordinatable key id, l ≠ .start d coordinatable key id) : s'.Bounded n ks := by
  cases h with
  | start => exact absurd rfl (hl _ _ _ _)
  | @deliver d₀ dl₀ e a handled dl' locks found step uses =>
    obtain ⟨hd₀, hkey₀⟩ := hb.deliveries d₀ dl₀ found
    refine ⟨fun d dl hd => ?_, fun k hk => ?_⟩
    · by_cases hdd : d = d₀
      · subst hdd
        simp only [Function.update_self, Option.some.injEq] at hd
        subst hd
        exact ⟨hd₀, step.update_eq.1 ▸ hkey₀⟩
      · exact hb.deliveries d dl ((Function.update_of_ne hdd ..).symm.trans hd)
    · obtain rfl | ⟨lb, -, hget, step⟩ := uses.step_cases
      · exact hb.locks k hk
      · rcases step.dict_cases hk with hk | ⟨o, ho⟩
        · exact hb.locks k hk
        · exact hget o k ho ▸ hkey₀
  | expire => exact ⟨hb.deliveries, hb.locks⟩
  | wait found pc step | drop found pc step | timer step | collect step =>
    exact ⟨hb.deliveries, fun k hk => hb.locks k ((step.dict_cases hk).resolve_right nofun)⟩

theorem exists_bounded (h : (memoryLts Key Id).Reachable s) : ∃ n ks, s.Bounded n ks := by
  refine h.invariant (I := fun s => ∃ n ks, s.Bounded n ks) ?_ ?_
  · rintro _ rfl
    exact ⟨0, ∅, fun _ _ h => absurd h nofun, fun _ h => absurd rfl h⟩
  · rintro s l s' ⟨n, ks, hb⟩ - hst
    by_cases hl : ∃ d coordinatable key id, l = .start d coordinatable key id
    · obtain ⟨d, coordinatable, key, id, rfl⟩ := hl
      cases hst with
      | start new =>
        refine ⟨max n (d + 1), insert key ks, fun d' dl hd => ?_, fun k hk =>
          Finset.mem_insert_of_mem (hb.locks k hk)⟩
        by_cases hdd : d' = d
        · subst hdd
          simp only [Function.update_self, Option.some.injEq] at hd
          exact ⟨lt_max_of_lt_right (Nat.lt_succ_self d'), hd ▸ Finset.mem_insert_self ..⟩
        · simp only [Function.update_of_ne hdd] at hd
          obtain ⟨hlt, hmem⟩ := hb.deliveries d' dl hd
          exact ⟨lt_max_of_lt_left hlt, Finset.mem_insert_of_mem hmem⟩
    · exact ⟨n, ks, MemoryStep.bounded hst hb fun d c k i h => hl ⟨d, c, k, i, h⟩⟩

omit [DecidableEq Key] [DecidableEq Id] in
/-- What is left to do gets less when one delivery has less to do. -/
theorem left_lt_of_toGo (hd : d < n) (hframe : ∀ d' ≠ d, s'.toGo d' = s.toGo d')
    (hlt : s'.toGo d + KeyedLocks.present s'.locks.dict ks <
      s.toGo d + KeyedLocks.present s.locks.dict ks) : s'.left n ks < s.left n ks := by
  have hsum : ∑ d' ∈ (Finset.range n).erase d, s'.toGo d' =
      ∑ d' ∈ (Finset.range n).erase d, s.toGo d' :=
    Finset.sum_congr rfl fun d' hd' => hframe d' (Finset.ne_of_mem_erase hd')
  have hleft := Finset.add_sum_erase (Finset.range n) (fun d => s.toGo d) (Finset.mem_range.2 hd)
  have hleft' := Finset.add_sum_erase (Finset.range n) (fun d => s'.toGo d) (Finset.mem_range.2 hd)
  simp only [hsum] at hleft hleft'
  rw [MemoryState.left, MemoryState.left]
  omega

omit [DecidableEq Key] [DecidableEq Id] in
theorem MemoryState.toGo_of_eq_some (hd : s.deliveries d = some dl) :
    s.toGo d = 3 * dl.toGo + pointToGo (s.locks.points d) := by
  rw [toGo, hd, Option.map_some, Option.getD_some]

/-- There is less left to do after each step. -/
theorem MemoryStep.left_lt (h : MemoryStep s l s') (hp : Proceeds s l) (hs : s.Sound)
    (hb : s.Bounded n ks) : s'.left n ks < s.left n ks := by
  have hpoint : ∀ p : LockPoint Key, pointToGo p ≤ 1 := by
    intro p
    cases p <;> simp [pointToGo]
  -- The delivery stays as it is, and the point it is at with its lock changes.
  have hinternal : ∀ {d dl lb locks}, s.deliveries d = some dl → s.locks.Step lb locks →
      lb.actor = some d → (∀ o, lb ≠ .release o) → locks.dict = s.locks.dict →
      pointToGo (locks.points d) < pointToGo (s.locks.points d) →
      MemoryState.left { s with locks := locks } n ks < s.left n ks := by
    intro d dl lb locks hd step hlb hrel hdict hlt
    refine left_lt_of_toGo (hb.deliveries d dl hd).1 (fun d' hdd => ?_) ?_
    · obtain ⟨a, ha⟩ := step.action hs.agrees.inv fun o ho => absurd ho (hrel o)
      rw [MemoryState.toGo, MemoryState.toGo,
        ha.frame d' (by rw [hlb, ne_eq, Option.some.injEq]; exact Ne.symm hdd)]
    · simp only [MemoryState.toGo, hdict]
      omega
  cases h with
  | start | timer | expire => exact hp.elim
  | @deliver d dl e a handled dl' locks found step uses =>
    have hlinks := uses.links step (hs.phase d dl found) (hs.agrees.linked d dl found) hs.agrees.inv
    refine left_lt_of_toGo (hb.deliveries d dl found).1 (fun d' hdd => ?_) ?_
    · simp only [MemoryState.toGo, Function.update_of_ne hdd, hlinks.frame d' hdd]
    · have hlt := step.toGo_lt hp.1
      have hle := hpoint (locks.points d)
      have hmade : KeyedLocks.present locks.dict ks ≤ KeyedLocks.present s.locks.dict ks + 1 := by
        obtain rfl | ⟨lb, -, -, step⟩ := uses.step_cases
        · exact Nat.le_succ _
        · exact step.present_le ks
      rw [MemoryState.toGo_of_eq_some (show _ = some dl' from Function.update_self ..),
        MemoryState.toGo_of_eq_some found]
      change 3 * dl'.toGo + pointToGo (locks.points d) + KeyedLocks.present locks.dict ks < _
      omega
  | @wait d dl locks k obj m found pc step waits =>
    cases step with
    | take => simp at waits
    | wait has busy =>
      refine hinternal found (.wait has busy) rfl nofun rfl ?_
      rw [waits, has]
      exact Nat.zero_lt_one
  | drop found pc step =>
    cases step with
    | drop has =>
      refine hinternal found (.drop has) rfl nofun rfl ?_
      simp [has, pointToGo]
  | collect step =>
    cases step with
    | collect locked dead =>
      refine Nat.add_lt_add_left (KeyedLocks.present_lt_of_collect ?_ (hb.locks _ ?_)) _
      · rw [locked]
        rfl
      · rw [locked]
        exact nofun

/-! ### At rest -/

/-- Who holds the lock of a key may release it. -/
theorem exists_release {k : Key} {obj : ℕ} (hi : ls.Inv) (hpt : ls.points d = .holding k obj) :
    ∃ ls', ls.Step (.release d) ls' := by
  have hl := (hi.guards.taken_iff obj).2 ⟨d, by rw [hpt]; rfl⟩
  exact ⟨_, .release (.inr hpt) (AsyncLock.release_eq_some_iff.2 ⟨hl, rfl⟩)⟩

/-- What an event does to the locks can be done to them. -/
theorem exists_uses (hst : dl.Step handled e a handled' dl') (hp : dl.Phase) (hi : ls.Inv)
    (hl : Linked dl (ls.points d)) (hpl : Placed dl (ls.points d))
    (hacq : ∀ answer, e ≠ .acquire answer) : ∃ ls', Uses d dl.key e ls ls' := by
  have hrelease : a = .release dl.key → ∃ ls', ls.Step (.release d) ls' := by
    rintro rfl
    obtain ⟨obj, hpt⟩ := LockPoint.heldKey_eq_some_iff.1 (hl.holds.trans (hst.moves hp).1)
    exact exists_release hi hpt
  cases hst with
  | lock pc =>
    have hidle := hpl.early (.inr pc)
    cases hf : ls.dict dl.key with
    | none => exact ⟨_, .get (.make hidle hf)⟩
    | some obj => exact ⟨_, .get (.get hidle hf)⟩
  | early rel early step =>
    cases step with
    | release =>
      obtain ⟨ls', hstep⟩ := hrelease rfl
      exact ⟨ls', .early hstep⟩
    | mark | markFails => exact ⟨ls, .quiet nofun nofun nofun nofun⟩
  | settle pc rel step =>
    cases step with
    | release =>
      obtain ⟨ls', hstep⟩ := hrelease rfl
      exact ⟨ls', .settle hstep⟩
    | mark | markFails => exact ⟨ls, .quiet nofun nofun nofun nofun⟩
  | acquire | timeout | acquireRaises => exact absurd rfl (hacq _)
  | _ => exact ⟨ls, .quiet nofun nofun nofun nofun⟩

/-- A delivery that has not ended, and does not wait for its lock, goes on. -/
theorem MemoryState.Sound.exists_step (hs : s.Sound) (hd : s.deliveries d = some dl)
    (hpc : dl.pc ≠ .acquiring) (hend : ∀ o, dl.pc ≠ .ended o) :
    ∃ s', (memoryLts Key Id).StepUnder Proceeds s s' := by
  have hp := hs.phase d dl hd
  have hpl := hs.placed d dl hd
  obtain ⟨e, a, handled', dl', hst, hacq, hmark⟩ :=
    Delivery.exists_step s.handled hp hpl.known hpc hend
  obtain ⟨ls', huses⟩ := exists_uses hst hp hs.agrees.inv (hs.agrees.linked d dl hd) hpl hacq
  exact ⟨_, .deliver d e, ⟨hmark, fun h => absurd h (hacq _)⟩, .deliver hd hst huses⟩

omit [DecidableEq Key] [DecidableEq Id] in
theorem calls_of_holds (h : dl.holds ≠ none) :
    Call.acquire ∈ dl.calls ∧ Call.release ∉ dl.calls := by
  by_contra hn
  exact h (if_neg hn)

omit [DecidableEq Key] [DecidableEq Id] in
/-- A delivery that has acquired its lock is past the acquisition. -/
theorem past_of_acquire (hp : dl.Phase) (h : Call.acquire ∈ dl.calls) :
    dl.pc ≠ .coordinatable ∧ dl.pc ≠ .locking ∧ dl.pc ≠ .acquiring := by
  cases hp with
  | outside _ _ calls => simp [calls] at h
  | inside rel early released pc calls =>
    exact (Delivery.Phase.inside rel early released pc calls).past rel
  | claimed rel early released pc calls tail =>
    exact (Delivery.Phase.claimed rel early released pc calls tail).past rel
  | settling rel early released started pc calls tail =>
    exact (Delivery.Phase.settling rel early released started pc calls tail).past rel

omit [DecidableEq Key] [DecidableEq Id] in
theorem MemoryState.Agrees.exists_delivery (hs : s.Agrees) (hpt : s.locks.points d ≠ .idle) :
    ∃ dl, s.deliveries d = some dl :=
  Option.ne_none_iff_exists'.1 fun h => hpt (hs.idle d h)

section Stuck

variable (hs : s.Sound) (hstuck : ∀ s', ¬(memoryLts Key Id).StepUnder Proceeds s s')
include hs hstuck

/-- When the deliveries do not go on, none holds a lock, -/
theorem free_of_stuck (obj : ℕ) : (s.locks.objects obj).locked = false := by
  by_contra hl
  obtain ⟨d, hd⟩ := (hs.agrees.inv.guards.taken_iff obj).1 (Bool.eq_true_of_not_eq_false hl)
  obtain ⟨k, hpt⟩ := LockPoint.held_eq_some_iff.1 hd
  obtain ⟨dl, hdl⟩ := hs.agrees.exists_delivery (d := d) (by rw [hpt]; exact nofun)
  have hp := hs.phase d dl hdl
  have hcalls : Call.acquire ∈ dl.calls ∧ Call.release ∉ dl.calls := calls_of_holds <| by
    rw [← (hs.agrees.linked d dl hdl).holds, hpt]
    exact nofun
  obtain ⟨s', hst⟩ := hs.exists_step hdl (past_of_acquire hp hcalls.1).2.2 fun o ho =>
    hcalls.2 (hp.calls.2.2 o ho hcalls.1)
  exact hstuck s' hst

/-- none is left that waits, -/
theorem ne_acquiring_of_stuck (hd : s.deliveries d = some dl) : dl.pc ≠ .acquiring := by
  intro hpc
  obtain ⟨obj, hpt | ⟨n, hpt⟩⟩ := (hs.placed d dl hd).acquiring hpc
  · -- It asks for the lock, and gets it at once, or waits.
    cases hacq : (s.locks.objects obj).acquire d with
    | mk taken l =>
      cases taken with
      | true =>
        exact hstuck _ ⟨.deliver d (.acquire (some true)), ⟨nofun, nofun⟩,
          .deliver hd (.acquire hpc) (.take (.take hpt hacq) (Function.update_self ..))⟩
      | false =>
        exact hstuck _ ⟨.wait d, trivial,
          .wait hd hpc (.wait hpt hacq) (Function.update_self ..)⟩
  · -- The first of those that wait for the free lock resumes.
    obtain ⟨d₁, k, m, ls', hpt₁, hst⟩ :=
      hs.agrees.inv.exists_resume hpt (free_of_stuck hs hstuck obj)
    obtain ⟨dl₁, hd₁⟩ := hs.agrees.exists_delivery (d := d₁) (by rw [hpt₁]; exact nofun)
    have hpc₁ := (hs.placed d₁ dl₁ hd₁).waiting k obj m hpt₁
    have hst₀ := hst
    cases hst with
    | resume waits resumed =>
      exact hstuck _ ⟨.deliver d₁ (.acquire (some true)), ⟨nofun, nofun⟩,
        .deliver hd₁ (.acquire hpc₁) (.resume hst₀ (Function.update_self ..))⟩
    | giveUp waits resumed =>
      exact hstuck _ ⟨.deliver d₁ (.acquire (some false)), ⟨nofun, fun _ => ⟨k, obj, m, hpt₁⟩⟩,
        .deliver hd₁ (.timeout hpc₁) (.giveUp hst₀ (Function.update_self ..))⟩

/-- and all have ended. -/
theorem ended_of_stuck (hd : s.deliveries d = some dl) : ∃ o, dl.pc = .ended o := by
  by_contra hend
  obtain ⟨s', hst⟩ := hs.exists_step hd (ne_acquiring_of_stuck hs hstuck hd) (not_exists.1 hend)
  exact hstuck s' hst

/-- The locks have been dropped, and collected. -/
theorem dict_of_stuck (k : Key) : s.locks.dict k = none := by
  have hidle : ∀ d, s.locks.points d = .idle := by
    intro d
    cases hd : s.deliveries d with
    | none => exact hs.agrees.idle d hd
    | some dl =>
      obtain ⟨o, ho⟩ := ended_of_stuck hs hstuck hd
      cases hpt : s.locks.points d with
      | idle => rfl
      | has k obj => exact absurd ⟨.drop d, trivial, .drop hd ho (.drop hpt)⟩ (hstuck _)
      | waiting k obj n =>
        exact absurd ((hs.placed d dl hd).waiting k obj n hpt) (ne_acquiring_of_stuck hs hstuck hd)
      | holding k obj =>
        have htaken := (hs.agrees.inv.guards.taken_iff obj).2 ⟨d, by rw [hpt]; rfl⟩
        exact absurd (htaken.symm.trans (free_of_stuck hs hstuck obj)) nofun
  cases hk : s.locks.dict k with
  | none => rfl
  | some obj =>
    refine absurd ⟨.collect k, trivial, .collect (.collect hk fun d k' => ?_)⟩ (hstuck _)
    rw [hidle d]
    exact nofun

end Stuck

/-! ### With the lock, or too late -/

/-- A delivery waits for its lock in time, or has got it. -/
def InTime (s : MemoryState Key Id) (d : ℕ) (dl : Delivery Key Id) : Prop :=
  dl.pc = .acquiring ∧ ¬s.TimedOut d ∨ Call.acquire ∈ dl.calls

omit [DecidableEq Key] in
/-- A step of a delivery that has acquired its lock keeps the calls it has made. -/
theorem acquire_mem_of_step (hst : dl.Step handled e a handled' dl') (hp : dl.Phase)
    (h : Call.acquire ∈ dl.calls) : Call.acquire ∈ dl'.calls := by
  rcases hst.calls_cases hp with ⟨-, hc | hc | hc⟩ | ⟨-, -, hc⟩ | ⟨-, -, -, hc⟩ <;> rw [hc]
  · exact h
  · exact List.mem_append_left _ h
  · exact List.mem_append_left _ h
  · exact List.mem_cons_self
  · exact List.mem_append_left _ h

/-- A delivery that waits in time gives up at no step. -/
theorem acquire_mem_of_acquiring (hs : s.Sound) (hd : s.deliveries d = some dl)
    (hst : dl.Step s.handled e a handled' dl') (hu : Uses d dl.key e s.locks ls')
    (hp : Proceeds s (.deliver d e)) (hpc : dl.pc = .acquiring) (ht : ¬s.TimedOut d) :
    Call.acquire ∈ dl'.calls := by
  have hrel : ∀ r, dl.release ≠ some r := fun r hr => ((hs.phase d dl hd).past hr).2.2 hpc
  cases hst with
  | acquire => exact List.mem_append_right _ (List.mem_singleton_self _)
  | acquireRaises =>
    cases hu with
    | quiet _ acquire => exact absurd rfl (acquire _)
  | timeout =>
    obtain ⟨k, obj, n, hpt⟩ := hp.2 rfl
    cases hu with
    | giveUp step has =>
      -- It has been cancelled.
      obtain ⟨f, hf, hmem⟩ := hs.agrees.inv.mem_of_giveUp step has
      exact absurd ⟨_, f, hf, hmem⟩ ht
    | late has => exact absurd (hpt.symm.trans has) nofun
    | quiet _ acquire => exact absurd rfl (acquire _)
  | markHandled rel | markHandledLate rel | earlyStart rel | early rel => exact absurd rel (hrel _)
  | _ pc => exact absurd (hpc.symm.trans pc) nofun

/-- The deliveries stay, and those that are in time stay in time. -/
theorem MemoryStep.inTime (h : MemoryStep s l s') (hp : Proceeds s l) (hs : s.Sound)
    (hd : s.deliveries d = some dl) :
    ∃ dl', s'.deliveries d = some dl' ∧ (InTime s d dl → InTime s' d dl') := by
  have ht : ¬s.TimedOut d → ¬s'.TimedOut d := mt (h.timedOut hp)
  -- The delivery does nothing.
  have hkeep : InTime s d dl → InTime s' d dl := Or.imp_left fun hw => ⟨hw.1, ht hw.2⟩
  cases h with
  | start | timer | expire => exact hp.elim
  | @deliver d₀ dl₀ e a handled dl' locks found step uses =>
    by_cases hdd : d = d₀
    · subst hdd
      obtain rfl := Option.some.inj (hd.symm.trans found)
      refine ⟨dl', Function.update_self .., fun hin => .inr ?_⟩
      rcases hin with ⟨hpc, ht⟩ | hacq
      · exact acquire_mem_of_acquiring hs hd step uses hp hpc ht
      · exact acquire_mem_of_step step (hs.phase d dl hd) hacq
    · exact ⟨dl, (Function.update_of_ne hdd ..).trans hd, hkeep⟩
  | wait | drop | collect => exact ⟨dl, hd, hkeep⟩

/-- The deliveries of a state have all ended in another, with their locks if they were in time, and
    their locks are gone. -/
structure MemoryState.AtRest (s₀ s : MemoryState Key Id) : Prop where
  ended : ∀ d dl₀, s₀.deliveries d = some dl₀ → ∃ dl o, s.deliveries d = some dl ∧
    dl.pc = .ended o ∧
      (InTime s₀ d dl₀ → Call.acquire ∈ dl.calls ∧ Call.release ∈ dl.calls)
  collected : ∀ k, s.locks.dict k = none

/-- No delivery waits forever. However the deliveries under way take turns, whatever their hooks
    raise, and whether or not the registry can be written to: when no further timer fires and
    no handler calls `mark_handled()`, they all come to their end, whoever holds the lock they
    wait for, whoever waits before them, and whoever has given up. Those that wait in time
    come to hold their lock, and release it; and no lock is left. -/
theorem deliveries_come_to_rest (h : (memoryLts Key Id).Reachable s) :
    (memoryLts Key Id).ComesToRest Proceeds s.AtRest s := by
  obtain ⟨n, ks, hb⟩ := exists_bounded h
  refine .of_measure (I := fun s₁ => (memoryLts Key Id).Reachable s₁ ∧ s₁.Bounded n ks ∧
    ∀ d dl₀, s.deliveries d = some dl₀ → ∃ dl, s₁.deliveries d = some dl ∧
      (InTime s d dl₀ → InTime s₁ d dl)) (fun s => s.left n ks)
    ⟨h, hb, fun d dl₀ hd => ⟨dl₀, hd, id⟩⟩ ?_ ?_ ?_
  · rintro s₁ s₂ ⟨hr, hb, hin⟩ ⟨l, hp, hst⟩
    refine ⟨hr.tail trivial hst, MemoryStep.bounded hst hb ?_, fun d dl₀ hd₀ => ?_⟩
    · rintro _ _ _ _ rfl
      exact hp
    · obtain ⟨dl, hd, himp⟩ := hin d dl₀ hd₀
      obtain ⟨dl', hd', himp'⟩ := MemoryStep.inTime hst hp (memory_sound_of_reachable hr) hd
      exact ⟨dl', hd', himp' ∘ himp⟩
  · rintro s₁ s₂ ⟨hr, hb, -⟩ ⟨l, hp, hst⟩
    exact MemoryStep.left_lt hst hp (memory_sound_of_reachable hr) hb
  · rintro s₁ ⟨hr, -, hin⟩ hstuck
    have hs := memory_sound_of_reachable hr
    refine ⟨fun d dl₀ hd₀ => ?_, dict_of_stuck hs hstuck⟩
    obtain ⟨dl, hd, himp⟩ := hin d dl₀ hd₀
    obtain ⟨o, ho⟩ := ended_of_stuck hs hstuck hd
    refine ⟨dl, o, hd, ho, fun h₀ => ?_⟩
    have hacq := (himp h₀).resolve_left fun hw => absurd (ho.symm.trans hw.1) nofun
    exact ⟨hacq, (hs.phase d dl hd).calls.2.2 o ho hacq⟩

/-- An update waits for the lock of its key, which another one holds. -/
theorem deliveries_come_to_rest_second : ∃ s : MemoryState ℕ ℕ, (memoryLts ℕ ℕ).Reachable s ∧
    s.locks.points 0 = .holding 7 0 ∧ s.locks.points 1 = .waiting 7 0 0 ∧
    (memoryLts ℕ ℕ).ComesToRest Proceeds s.AtRest s ∧
    ∃ s' dl, (memoryLts ℕ ℕ).RunUnder Proceeds s s' ∧ s'.deliveries 1 = some dl ∧
      Call.acquire ∈ dl.calls := by
  obtain ⟨s, hr, hpc, -, hold, hw, hwaiters⟩ := reachable_waiting
  obtain ⟨dl, hd, hpc⟩ := Option.map_eq_some_iff.1 hpc
  have hreach : (memoryLts ℕ ℕ).Reachable s := hr.mono fun _ _ _ => trivial
  have hrest := deliveries_come_to_rest hreach
  obtain ⟨s', hrun, hs'⟩ := hrest.exists_run
  obtain ⟨dl', o, hd', -, hcalls⟩ := hs'.ended 1 dl hd
  refine ⟨s, hreach, hold, hw, hrest, s', dl', hrun, hd', (hcalls (.inl ⟨hpc, ?_⟩)).1⟩
  rintro ⟨obj, f, hf, hmem⟩
  have hinv := (memory_sound_of_reachable hreach).agrees.inv
  have hwaits := (hinv.waits obj 1).1 (List.mem_map_of_mem hmem)
  rw [hw] at hwaits
  obtain rfl : 0 = obj := hwaits
  obtain rfl : f = .pending := by simpa [hwaiters] using hmem
  simp [LockFuture.IsCancelled] at hf

end Coordination

end Pyroflow
