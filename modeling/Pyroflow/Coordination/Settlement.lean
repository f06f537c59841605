import Pyroflow.Coordination

/-!
# Settlement

A delivery that has acquired its lock settles exactly once. The settlement is that of
the task `mark_handled()` has scheduled, or the one in the `finally` block, and the
flags of the release tell which (`Delivery.Phase`): the calls the delivery makes are,
in this order, `acquire`, possibly the `mark_handled()` that claims the settlement,
possibly `mark`, and `release`.

So a delivery releases its own lock only, and only while it holds it, and the locks
exclude each other although they do not know their owners (`guards_of_reachable`).
-/

namespace Pyroflow

open Dispatcher

variable {Key Id : Type}

/-! ### The phases of a delivery -/

/-- Where `handle_update` has acquired no lock. -/
def DeliveryPc.Outside : DeliveryPc → Prop
  | .coordinatable | .locking | .acquiring | .uncoordinated | .ended _ => True
  | _ => False

/-- Where `handle_update` holds its lock, in its `try` block. -/
def DeliveryPc.Inside : DeliveryPc → Prop
  | .identifying | .checking | .checked _ | .running => True
  | _ => False

/-- The calls a settlement has made, at a point of it. -/
def SettlePc.Made : SettlePc → List Call → Prop
  | .scheduled, calls | .marking, calls => calls = []
  | .releasing, calls => calls = [] ∨ calls = [.mark]
  | .done, calls => calls = [.release] ∨ calls = [.mark, .release]

/-- The phases of a delivery. -/
inductive Delivery.Phase (dl : Delivery Key Id) : Prop
  /-- It has acquired no lock. -/
  | outside (rel : dl.release = none) (pc : dl.pc.Outside) (calls : dl.calls = [])
  /-- It holds its lock, and nobody has claimed its settlement. -/
  | inside {r} (rel : dl.release = some r) (early : r.early = none) (released : r.released = false)
      (pc : dl.pc.Inside) (calls : dl.calls = [.acquire])
  /-- Its settlement is claimed by `mark_handled()`. -/
  | claimed {r sp made} (rel : dl.release = some r) (early : r.early = some sp)
      (released : r.released = false ↔ sp = .scheduled)
      (pc : dl.pc.Inside ∨ (∃ o, dl.pc = .awaiting o) ∨ ∃ o, dl.pc = .ended o ∧ sp = .done)
      (calls : dl.calls = .acquire :: .claim :: made) (tail : sp.Made made)
  /-- It settles, or has settled, in its `finally` block. -/
  | settling {r sp o made} (rel : dl.release = some r) (early : r.early = none)
      (released : r.released = true) (started : sp ≠ .scheduled)
      (pc : dl.pc = .settling sp o ∨ dl.pc = .ended o ∧ sp = .done)
      (calls : dl.calls = .acquire :: made) (tail : sp.Made made)

namespace Delivery

variable {dl : Delivery Key Id} {r : Release Id}

/-- In the `try` block, the settlement is claimed by `mark_handled()`, or by nobody. -/
theorem Phase.of_inside (h : dl.Phase) (hpc : dl.pc.Inside) : ∃ r, dl.release = some r ∧
    (r.early = none ∧ r.released = false ∧ dl.calls = [.acquire] ∨
      ∃ sp made, r.early = some sp ∧ (r.released = false ↔ sp = .scheduled) ∧
        dl.calls = .acquire :: .claim :: made ∧ sp.Made made) := by
  cases h with
  | outside _ pc =>
    cases hdl : dl.pc with
    | identifying | checking | checked | running => exact (hdl ▸ pc).elim
    | _ => exact (hdl ▸ hpc).elim
  | inside rel early released _ calls => exact ⟨_, rel, .inl ⟨early, released, calls⟩⟩
  | claimed rel early released _ calls tail =>
    exact ⟨_, rel, .inr ⟨_, _, early, released, calls, tail⟩⟩
  | settling _ _ _ _ pc => rcases pc with pc | ⟨pc, _⟩ <;> exact (pc ▸ hpc).elim

/-- Before it has acquired the lock, a delivery has made no call. -/
theorem Phase.of_outside (h : dl.Phase) (hpc : dl.pc.Outside) (hne : ∀ o, dl.pc ≠ .ended o) :
    dl.release = none ∧ dl.calls = [] := by
  cases h with
  | outside rel _ calls => exact ⟨rel, calls⟩
  | inside _ _ _ pc =>
    cases hdl : dl.pc with
    | identifying | checking | checked | running => exact (hdl ▸ hpc).elim
    | _ => exact (hdl ▸ pc).elim
  | claimed _ _ _ pc =>
    rcases pc with pc | ⟨o, pc⟩ | ⟨o, pc, _⟩
    · cases hdl : dl.pc with
      | identifying | checking | checked | running => exact (hdl ▸ hpc).elim
      | _ => exact (hdl ▸ pc).elim
    · exact (pc ▸ hpc).elim
    · exact absurd pc (hne o)
  | settling _ _ _ _ pc =>
    rcases pc with pc | ⟨pc, _⟩
    · exact (pc ▸ hpc).elim
    · exact absurd pc (hne _)

/-- Where nobody settles, the `try` block is running. -/
theorem Phase.of_unclaimed (h : dl.Phase) (hr : dl.release = some r) (he : r.early = none)
    (hs : r.released = false) : dl.pc.Inside ∧ dl.calls = [.acquire] := by
  cases h with
  | outside rel => exact absurd (rel.symm.trans hr) nofun
  | inside _ _ _ pc calls => exact ⟨pc, calls⟩
  | claimed rel early =>
    obtain rfl := Option.some.inj (rel.symm.trans hr)
    exact absurd (early.symm.trans he) nofun
  | settling rel _ released =>
    obtain rfl := Option.some.inj (rel.symm.trans hr)
    exact absurd (released.symm.trans hs) nofun

/-- Where `mark_handled()` has claimed the settlement. -/
theorem Phase.of_claimed (h : dl.Phase) (hr : dl.release = some r) {sp : SettlePc}
    (he : r.early = some sp) : ∃ made, (r.released = false ↔ sp = .scheduled) ∧
      (dl.pc.Inside ∨ (∃ o, dl.pc = .awaiting o) ∨ ∃ o, dl.pc = .ended o ∧ sp = .done) ∧
      dl.calls = .acquire :: .claim :: made ∧ sp.Made made := by
  cases h with
  | outside rel => exact absurd (rel.symm.trans hr) nofun
  | inside rel early =>
    obtain rfl := Option.some.inj (rel.symm.trans hr)
    exact absurd (early.symm.trans he) nofun
  | claimed rel early released pc calls tail =>
    obtain rfl := Option.some.inj (rel.symm.trans hr)
    obtain rfl := Option.some.inj (early.symm.trans he)
    exact ⟨_, released, pc, calls, tail⟩
  | settling rel early =>
    obtain rfl := Option.some.inj (rel.symm.trans hr)
    exact absurd (early.symm.trans he) nofun

/-- Where the `finally` block settles. -/
theorem Phase.of_settling (h : dl.Phase) {sp : SettlePc} {o : Except Raised Unit}
    (hpc : dl.pc = .settling sp o) : ∃ r made, dl.release = some r ∧ r.early = none ∧
      r.released = true ∧ dl.calls = .acquire :: made ∧ sp.Made made := by
  cases h with
  | outside _ pc => exact (hpc ▸ pc).elim
  | inside _ _ _ pc => exact (hpc ▸ pc).elim
  | claimed _ _ _ pc =>
    rcases pc with pc | ⟨_, pc⟩ | ⟨_, pc, _⟩
    · exact (hpc ▸ pc).elim
    · exact absurd (hpc.symm.trans pc) nofun
    · exact absurd (hpc.symm.trans pc) nofun
  | settling rel early released _ pc calls tail =>
    rcases pc with pc | ⟨pc, _⟩
    · rw [hpc, DeliveryPc.settling.injEq] at pc
      obtain ⟨rfl, rfl⟩ := pc
      exact ⟨_, _, rel, early, released, calls, tail⟩
    · exact absurd (hpc.symm.trans pc) nofun

/-- The `try` block goes on. -/
theorem Phase.goes_on (h : dl.Phase) (hpc : dl.pc.Inside) {dl' : Delivery Key Id}
    (hpc' : dl'.pc.Inside) (hcalls : dl'.calls = dl.calls)
    (hr : ∀ r, dl.release = some r →
      ∃ i, dl'.release = some { r with updateId := i }) : dl'.Phase := by
  obtain ⟨r, rel, h⟩ := h.of_inside hpc
  obtain ⟨i, rel'⟩ := hr r rel
  rcases h with ⟨early, released, calls⟩ | ⟨sp, made, early, released, calls, tail⟩
  · exact .inside rel' early released hpc' (hcalls.trans calls)
  · exact .claimed rel' early released (.inl hpc') (hcalls.trans calls) tail

/-- `mark_handled()` claims a settlement nobody has started. -/
theorem claimEarly_eq_some {r' : Release Id} (h : r.claimEarly = some r') :
    r.early = none ∧ r.released = false ∧ r' = { r with early := some .scheduled } := by
  rw [Release.claimEarly] at h
  split at h
  · exact absurd h nofun
  · rename_i hfree
    rw [Bool.not_eq_true, Bool.or_eq_false_iff, Option.isSome_eq_false_iff,
      Option.isNone_iff_eq_none] at hfree
    exact ⟨hfree.1, hfree.2, (Option.some.inj h).symm⟩

/-- A settlement that starts goes for the registry, if it can, or for the lock. -/
theorem settle_eq (hr : r.released = false) (handled : Bool) :
    r.settle handled = ({ r with released := true },
      if handled && r.updateId.isSome then .marking else .releasing) := by
  rw [Release.settle, hr, if_neg nofun]

@[simp] theorem finish_ran (result : Except Raised (ℕ × ℕ)) :
    (dl.finish r result).ran = dl.ran := by
  rw [Delivery.finish]
  split <;> rfl

@[simp] theorem finish_calls (result : Except Raised (ℕ × ℕ)) :
    (dl.finish r result).calls = dl.calls := by
  rw [Delivery.finish]
  split <;> rfl

/-- The `try` block ends. -/
theorem Phase.finish (h : dl.Phase) (hpc : dl.pc.Inside) (hr : dl.release = some r)
    (result : Except Raised (ℕ × ℕ)) : (dl.finish r result).Phase := by
  obtain ⟨r', rel, h⟩ := h.of_inside hpc
  obtain rfl := Option.some.inj (rel.symm.trans hr)
  rw [Delivery.finish]
  rcases h with ⟨early, released, calls⟩ | ⟨sp, made, early, released, calls, tail⟩
  · rw [if_neg (by simp [early]), settle_eq released]
    refine .settling rfl early rfl ?_ (.inl rfl) calls ?_ <;> split
    · exact nofun
    · exact nofun
    · exact rfl
    · exact .inl rfl
  · rw [if_pos (by simp [early])]
    exact .claimed hr early released (.inr (.inl ⟨_, rfl⟩)) calls tail

/-- The phases are not about how `_handle_update` ended. -/
theorem Phase.ran (h : dl.Phase) (ran : Option (Except Raised (ℕ × ℕ))) :
    Phase { dl with ran := ran } := by
  cases h with
  | outside rel pc calls => exact .outside rel pc calls
  | inside rel early released pc calls => exact .inside rel early released pc calls
  | claimed rel early released pc calls tail => exact .claimed rel early released pc calls tail
  | settling rel early released started pc calls tail =>
    exact .settling rel early released started pc calls tail

variable [DecidableEq Id]

/-- A settlement makes its calls one by one. -/
theorem settle_made {key : Key} {updateId : Option Id}
    {handled handled' : Id → Bool} {sp sp' : SettlePc} {e : SettleEvent} {call : Call}
    {a : Mutex.Action Key} (h : sp.Step key updateId handled e call a handled' sp')
    {made : List Call} (hm : sp.Made made) : sp'.Made (made ++ [call]) ∧ sp ≠ .scheduled ∧
      sp' ≠ .scheduled ∧ sp ≠ .done := by
  cases h with
  | mark | markFails =>
    obtain rfl : made = [] := hm
    exact ⟨.inr rfl, nofun, nofun, nofun⟩
  | release => rcases hm with rfl | rfl <;> exact ⟨by simp [SettlePc.Made], nofun, nofun, nofun⟩

variable {handled handled' : Id → Bool} {e : DeliveryEvent} {a : Mutex.Action Key}
  {dl' : Delivery Key Id}

/-- A step keeps to the phases. -/
theorem Step.phase (h : dl.Step handled e a handled' dl') (hp : dl.Phase) : dl'.Phase := by
  cases h with
  | coordinatable pc | notCoordinatable pc | coordinatableRaises pc | lock pc | lockRaises pc
  | timeout pc | acquireRaises pc | uncoordinated pc =>
    obtain ⟨rel, calls⟩ := hp.of_outside (by rw [pc]; trivial) (by rw [pc]; exact nofun)
    exact .outside rel trivial calls
  | acquire pc =>
    obtain ⟨_, calls⟩ := hp.of_outside (by rw [pc]; trivial) (by rw [pc]; exact nofun)
    exact .inside rfl rfl rfl trivial (by rw [calls]; rfl)
  | identify pc rel =>
    refine hp.goes_on (by rw [pc]; trivial) trivial rfl fun r' rel' => ?_
    obtain rfl := Option.some.inj (rel.symm.trans rel')
    exact ⟨_, rfl⟩
  | check pc | process pc =>
    exact hp.goes_on (by rw [pc]; trivial) trivial rfl fun r rel => ⟨r.updateId, rel⟩
  | identifyRaises pc rel | checkRaises pc rel | drop pc rel =>
    exact hp.finish (by rw [pc]; trivial) rel _
  | ran pc rel => exact (hp.finish (by rw [pc]; trivial) rel _).ran _
  | markHandled rel claimed =>
    obtain ⟨early, released, rfl⟩ := claimEarly_eq_some claimed
    obtain ⟨pc, calls⟩ := hp.of_unclaimed rel early released
    exact .claimed rfl rfl (iff_of_true released rfl) (.inl pc) (by rw [calls]; rfl) rfl
  | markHandledLate => exact hp
  | earlyStart rel early =>
    obtain ⟨made, released, pc, calls, tail⟩ := hp.of_claimed rel early
    rw [settle_eq (released.2 rfl)]
    refine .claimed rfl rfl (iff_of_false nofun (by split <;> exact nofun)) ?_ calls ?_
    · rcases pc with pc | pc | ⟨_, _, h⟩
      · exact .inl pc
      · exact .inr (.inl pc)
      · exact absurd h nofun
    · obtain rfl : made = [] := tail
      split
      · exact rfl
      · exact .inl rfl
  | early rel early step =>
    obtain ⟨made, released, pc, calls, tail⟩ := hp.of_claimed rel early
    obtain ⟨tail', hs, hs', hd⟩ := settle_made step tail
    refine .claimed rfl rfl (iff_of_false (fun h => hs (released.1 h)) hs') ?_
      (by rw [calls]; rfl) tail'
    rcases pc with pc | pc | ⟨_, _, h⟩
    · exact .inl pc
    · exact .inr (.inl pc)
    · exact absurd h hd
  | settle pc rel step =>
    obtain ⟨r, made, rel', early, released, calls, tail⟩ := hp.of_settling pc
    obtain ⟨tail', _, hs', _⟩ := settle_made step tail
    exact .settling rel' early released hs' (.inl rfl) (by rw [calls]; rfl) tail'
  | settled pc =>
    obtain ⟨r, made, rel, early, released, calls, tail⟩ := hp.of_settling pc
    refine .settling rel early released ?_ (.inr ⟨rfl, rfl⟩) calls tail
    exact nofun
  | awaited pc rel early =>
    obtain ⟨made, released, _, calls, tail⟩ := hp.of_claimed rel early
    exact .claimed rel early released (.inr (.inr ⟨_, rfl, rfl⟩)) calls tail

/-- A step keeps what the hooks say of the update. -/
theorem Step.update_eq (h : dl.Step handled e a handled' dl') :
    dl'.key = dl.key ∧ dl'.id = dl.id ∧ dl'.coordinatable = dl.coordinatable := by
  have hfinish (r : Release Id) (result) : (dl.finish r result).key = dl.key ∧
      (dl.finish r result).id = dl.id ∧ (dl.finish r result).coordinatable = dl.coordinatable := by
    rw [Delivery.finish]
    split <;> exact ⟨rfl, rfl, rfl⟩
  cases h with
  | identifyRaises | checkRaises | drop | ran => exact hfinish ..
  | _ => exact ⟨rfl, rfl, rfl⟩

/-- The lock of a settlement that has not called `release` yet is held. -/
theorem made_release {sp : SettlePc} {made : List Call} (h : sp.Made made) (hd : sp ≠ .done) :
    Call.release ∉ made := by
  cases sp with
  | scheduled | marking =>
    obtain rfl : made = [] := h
    exact nofun
  | releasing => rcases h with rfl | rfl <;> decide
  | done => exact absurd rfl hd

/-- What a step does to the lock, and the calls it makes. -/
theorem Step.calls_cases (h : dl.Step handled e a handled' dl') (hp : dl.Phase) :
    (a = .keep ∧ (dl'.calls = dl.calls ∨ dl'.calls = dl.calls ++ [.claim] ∨
      dl'.calls = dl.calls ++ [.mark])) ∨
    (a = .acquire dl.key ∧ dl.calls = [] ∧ dl'.calls = [.acquire]) ∨
    (a = .release dl.key ∧ .acquire ∈ dl.calls ∧ .release ∉ dl.calls ∧
      dl'.calls = dl.calls ++ [.release]) := by
  cases h with
  | acquire pc =>
    obtain ⟨_, calls⟩ := hp.of_outside (by rw [pc]; trivial) (by rw [pc]; exact nofun)
    exact .inr (.inl ⟨rfl, calls, by rw [calls]; rfl⟩)
  | identifyRaises | checkRaises | drop | ran => exact .inl ⟨rfl, .inl (finish_calls _)⟩
  | markHandled => exact .inl ⟨rfl, .inr (.inl rfl)⟩
  | early rel early step =>
    obtain ⟨made, _, _, calls, tail⟩ := hp.of_claimed rel early
    have hrel := made_release tail (settle_made step tail).2.2.2
    cases step with
    | mark | markFails => exact .inl ⟨rfl, .inr (.inr rfl)⟩
    | release => exact .inr (.inr ⟨rfl, by simp [calls], by simp [calls, hrel], rfl⟩)
  | settle pc _ step =>
    obtain ⟨r, made, _, _, _, calls, tail⟩ := hp.of_settling pc
    have hrel := made_release tail (settle_made step tail).2.2.2
    cases step with
    | mark | markFails => exact .inl ⟨rfl, .inr (.inr rfl)⟩
    | release => exact .inr (.inr ⟨rfl, by simp [calls], by simp [calls, hrel], rfl⟩)
  | _ => exact .inl ⟨rfl, .inl rfl⟩

/-- The lock a delivery holds: the one it has acquired and not released. -/
def holds (dl : Delivery Key Id) : Option Key :=
  if Call.acquire ∈ dl.calls ∧ Call.release ∉ dl.calls then some dl.key else none

/-- A step acts on the lock of the delivery, which it holds if it releases it. -/
theorem Step.moves (h : dl.Step handled e a handled' dl') (hp : dl.Phase) :
    a.Moves dl.holds dl'.holds := by
  have hkey := h.update_eq.1
  rcases h.calls_cases hp with ⟨rfl, hc⟩ | ⟨rfl, hc, hc'⟩ | ⟨rfl, hacq, hrel, hc'⟩
  · rw [Mutex.Action.Moves, holds, holds, hkey]
    rcases hc with hc | hc | hc <;> simp [hc]
  · exact ⟨by simp [holds, hc], by simp [holds, hc', hkey]⟩
  · exact ⟨by simp [holds, hacq, hrel], by simp [holds, hc']⟩

omit [DecidableEq Id] in
/-- The calls of a delivery come in order, and it is over only when the lock is released. -/
theorem Phase.calls (h : dl.Phase) : dl.calls.Sublist [.acquire, .claim, .mark, .release] ∧
    (Call.acquire ∈ dl.calls ∨ dl.calls = []) ∧
    ∀ o, dl.pc = .ended o → Call.acquire ∈ dl.calls → Call.release ∈ dl.calls := by
  have hmade {sp : SettlePc} {made : List Call} (hm : sp.Made made) :
      made.Sublist [.mark, .release] ∧ (sp = .done → Call.release ∈ made) := by
    cases sp with
    | scheduled | marking =>
      obtain rfl : made = [] := hm
      exact ⟨List.nil_sublist _, nofun⟩
    | releasing | done => rcases hm with rfl | rfl <;> decide
  cases h with
  | outside _ _ calls => simp [calls]
  | inside _ _ _ pc calls =>
    refine ⟨by simp [calls], by simp [calls], fun o hpc => ?_⟩
    exact (hpc ▸ pc).elim
  | claimed _ _ _ pc calls tail =>
    rw [calls]
    refine ⟨((hmade tail).1.cons_cons _).cons_cons _, by simp, fun o hpc _ => ?_⟩
    rcases pc with pc | ⟨_, pc⟩ | ⟨_, _, rfl⟩
    · exact (hpc ▸ pc).elim
    · exact absurd (hpc.symm.trans pc) nofun
    · simp [(hmade tail).2 rfl]
  | settling _ _ _ _ pc calls tail =>
    rw [calls]
    refine ⟨((hmade tail).1.cons _).cons_cons _, by simp, fun o hpc _ => ?_⟩
    rcases pc with pc | ⟨_, rfl⟩
    · exact absurd (hpc.symm.trans pc) nofun
    · simp [(hmade tail).2 rfl]

end Delivery

/-! ### All deliveries -/

namespace Coordination

variable [DecidableEq Key] [DecidableEq Id] {s s' : State Key Id} {l : Label Key Id} {d : ℕ}
  {dl dl' : Delivery Key Id} {P : State Key Id → Label Key Id → Prop}

/-- Where a delivery comes from: it was there, it starts, or it takes a step. -/
theorem Step.delivery_cases (h : Step s l s') (hd : s'.deliveries d = some dl') :
    (s.deliveries d = some dl' ∧ ∀ e, l ≠ .deliver d e) ∨
    (∃ coordinatable key id, s.deliveries d = none ∧ l = .start d coordinatable key id ∧
      dl' = ⟨coordinatable, key, id, .coordinatable, none, none, []⟩ ∧ s'.handled = s.handled) ∨
    ∃ dl e a, s.deliveries d = some dl ∧ l = .deliver d e ∧ a.Enabled s.locked ∧
      dl.Step s.handled e a s'.handled dl' ∧ s'.locked = a.apply s.locked := by
  cases h with
  | @start d' _ _ _ new =>
    by_cases hdd : d = d'
    · subst hdd
      simp only [Function.update_self, Option.some.injEq] at hd
      exact .inr (.inl ⟨_, _, _, new, rfl, hd.symm, rfl⟩)
    · exact .inl ⟨(Function.update_of_ne hdd ..).symm.trans hd, nofun⟩
  | @deliver d' _ _ _ _ _ found step enabled =>
    by_cases hdd : d = d'
    · subst hdd
      simp only [Function.update_self, Option.some.injEq] at hd
      subst hd
      exact .inr (.inr ⟨_, _, _, found, rfl, enabled, step, rfl⟩)
    · refine .inl ⟨(Function.update_of_ne hdd ..).symm.trans hd, fun e h => ?_⟩
      cases h
      exact hdd rfl
  | expire => exact .inl ⟨hd, nofun⟩

/-- In a reachable state, every delivery is in one of its phases. -/
theorem phase_of_reachable (h : (coordinationLts Key Id).ReachableUnder P s)
    (hd : s.deliveries d = some dl) : dl.Phase := by
  refine h.invariant (I := fun s => ∀ d dl, s.deliveries d = some dl → dl.Phase)
    (by rintro _ rfl _ _ hd; exact absurd hd nofun) ?_ d dl hd
  intro s l s' ih _ hst d dl hd
  rcases hst.delivery_cases hd with
    ⟨hd, _⟩ | ⟨_, _, _, _, _, rfl, _⟩ | ⟨dl₀, e, a, hd₀, _, _, step, _⟩
  · exact ih d dl hd
  · exact .outside rfl trivial rfl
  · exact step.phase (ih d dl₀ hd₀)

/-- The lock a delivery holds. -/
def State.holds (s : State Key Id) (d : ℕ) : Option Key := (s.deliveries d).bind Delivery.holds

omit [DecidableEq Key] [DecidableEq Id] in
theorem State.holds_update (dl : Delivery Key Id) (locked : Key → Bool) (handled : Id → Bool) :
    State.holds ⟨Function.update s.deliveries d (some dl), locked, handled⟩ =
      Function.update s.holds d dl.holds := by
  funext d'
  by_cases hdd : d' = d
  · simp [State.holds, hdd]
  · simp [State.holds, Function.update_of_ne hdd]

/-- The locks that are taken are those the deliveries hold, each by one delivery. -/
theorem guards_of_reachable (h : (coordinationLts Key Id).ReachableUnder P s) :
    Mutex.Guards s.locked s.holds := by
  refine h.invariant_of_reachable (I := fun s => Mutex.Guards s.locked s.holds)
    (by rintro _ rfl; exact .free (fun _ => rfl) fun _ => rfl) ?_
  intro s l s' hr hg _ hst
  cases hst with
  | start new =>
    rw [State.holds_update]
    exact hg.keep (by rw [State.holds, new]; rfl)
  | deliver found step enabled =>
    rw [State.holds_update]
    refine hg.act enabled ?_
    rw [State.holds, found]
    exact step.moves (phase_of_reachable hr found)
  | expire => exact hg

omit [DecidableEq Key] [DecidableEq Id] in
/-- A delivery between `acquire` and its own settlement holds its lock. -/
theorem State.holds_eq (hd : s.deliveries d = some dl) (hacq : Call.acquire ∈ dl.calls)
    (hrel : Call.release ∉ dl.calls) : s.holds d = some dl.key := by
  rw [State.holds, hd]
  exact if_pos ⟨hacq, hrel⟩

/-- The labels of a delivery that comes to hold its lock. -/
inductive Label.Acquires (d : ℕ) (key : Key) (id : Id) : Label Key Id → Prop
  | start : Acquires d key id (.start d true key id)
  | coordinatable : Acquires d key id (.deliver d (.coordinatable true))
  | lock : Acquires d key id (.deliver d (.lock true))
  | acquire : Acquires d key id (.deliver d (.acquire (some true)))

/-- An update is delivered, and its lock, which is free, acquired. -/
theorem run_acquires (d : ℕ) (key : Key) (id : Id) (hP : ∀ s' l, l.Acquires d key id → P s' l)
    (hd : s.deliveries d = none) (hfree : s.locked key = false) :
    (coordinationLts Key Id).RunUnder P s { s with
      deliveries := Function.update s.deliveries d
        (some ⟨true, key, id, .identifying, some .new, none, [.acquire]⟩)
      locked := Function.update s.locked key true } := by
  have h₀ : (coordinationLts Key Id).RunUnder P s s := .refl
  have h₁ := h₀.tail (hP _ _ .start) (.start hd)
  have h₂ := h₁.tail (hP _ _ .coordinatable)
    (.deliver (Function.update_self ..) (.coordinatable rfl rfl) trivial)
  have h₃ := h₂.tail (hP _ _ .lock) (.deliver (Function.update_self ..) (.lock rfl) trivial)
  have h₄ := h₃.tail (hP _ _ .acquire) (.deliver (Function.update_self ..) (.acquire rfl) hfree)
  simpa only [Mutex.Action.apply, Function.update_idem, List.nil_append] using h₄

/-- Settlement is exactly once, and the scope is kept until then. A delivery makes its
    calls in order, each once at most: it acquires its lock, `mark_handled()` returns
    `True`, the update is registered, the lock is released. It releases the lock if it has
    acquired it, by its end, and a lock is freed by the delivery that holds it only.
    `mark_handled()` returns `True` before the settlement has started. And no two
    deliveries of one scope are both between `acquire` and their own settlement. -/
theorem settles_once (h : (coordinationLts Key Id).Reachable s) :
    (∀ d dl, s.deliveries d = some dl →
      dl.calls.Sublist [.acquire, .claim, .mark, .release] ∧
      (Call.acquire ∈ dl.calls ∨ dl.calls = []) ∧
      (∀ o, dl.pc = .ended o → Call.acquire ∈ dl.calls → Call.release ∈ dl.calls) ∧
      ∀ s', Step s (.deliver d (.markHandled true)) s' →
        dl.calls = [.acquire] ∧ ∃ r, dl.release = some r ∧ r.released = false) ∧
    (∀ l s' k, Step s l s' → s.locked k = true → s'.locked k = false →
      ∃ d dl dl', s.deliveries d = some dl ∧ dl.key = k ∧ s'.deliveries d = some dl' ∧
        Call.acquire ∈ dl.calls ∧ Call.release ∉ dl.calls ∧ dl'.calls = dl.calls ++ [.release]) ∧
    ∀ d d' dl dl', s.deliveries d = some dl → s.deliveries d' = some dl' → dl.key = dl'.key →
      Call.acquire ∈ dl.calls → Call.release ∉ dl.calls →
      Call.acquire ∈ dl'.calls → Call.release ∉ dl'.calls → d = d' := by
  refine ⟨fun d dl hd => ?_, fun l s' k hst hk hk' => ?_, ?_⟩
  · have hp := phase_of_reachable h hd
    refine ⟨hp.calls.1, hp.calls.2.1, hp.calls.2.2, fun s' hst => ?_⟩
    cases hst with
    | deliver found step =>
      obtain rfl := Option.some.inj (found.symm.trans hd)
      cases step with
      | markHandled rel claimed =>
        obtain ⟨early, released, rfl⟩ := Delivery.claimEarly_eq_some claimed
        exact ⟨(hp.of_unclaimed rel early released).2, _, rel, released⟩
  · cases hst with
    | deliver found step =>
      obtain rfl := Mutex.Action.eq_release hk hk'
      rcases step.calls_cases (phase_of_reachable h found) with
        ⟨ha, _⟩ | ⟨ha, _⟩ | ⟨ha, hacq, hrel, hc⟩
      · exact absurd ha nofun
      · exact absurd ha nofun
      · cases ha
        exact ⟨_, _, _, found, rfl, Function.update_self .., hacq, hrel, hc⟩
    | _ => exact absurd (hk.symm.trans hk') nofun
  · intro d d' dl dl' hd hd' hkey hacq hrel hacq' hrel'
    exact (guards_of_reachable h).unique (s.holds_eq hd hacq hrel)
      (hkey ▸ s.holds_eq hd' hacq' hrel')

/-- A handler calls `mark_handled()`, and the delivery ends once that has settled it. -/
theorem settles_once_early : ∃ (s : State ℕ ℕ) (dl : Delivery ℕ ℕ),
    (coordinationLts ℕ ℕ).Reachable s ∧ s.deliveries 0 = some dl ∧ dl.pc = .ended (.ok ()) ∧
      dl.calls.Sublist [.acquire, .claim, .mark, .release] ∧ Call.claim ∈ dl.calls ∧
      Call.release ∈ dl.calls ∧ s.handled 5 = true := by
  have h₀ : (coordinationLts ℕ ℕ).Reachable (.init ..) := .init rfl
  have h₁ := h₀.run (run_acquires 0 100 5 (fun _ _ _ => trivial) rfl rfl)
  have h₂ := h₁.tail trivial (.deliver (d := 0) rfl (.identify rfl rfl) trivial)
  have h₃ := h₂.tail trivial (.deliver (d := 0) rfl (.check rfl) trivial)
  have h₄ := h₃.tail trivial (.deliver (d := 0) rfl (.process rfl) trivial)
  have h₅ := h₄.tail trivial (.deliver (d := 0) rfl (.markHandled rfl rfl) trivial)
  have h₆ := h₅.tail trivial (.deliver (d := 0) rfl (.earlyStart rfl rfl) trivial)
  have h₇ := h₆.tail trivial (.deliver (d := 0) rfl (.early rfl rfl (.mark rfl)) trivial)
  have h₈ := h₇.tail (l := Label.deliver 0 (.ran (.ok (1, 0)))) trivial
    (.deliver rfl (.ran rfl rfl) trivial)
  have h₉ := h₈.tail trivial (.deliver (d := 0) rfl (.early rfl rfl .release) trivial)
  have h₁₀ := h₉.tail trivial (.deliver (d := 0) rfl (.awaited rfl rfl rfl) trivial)
  obtain ⟨s, h, dl, hd, hpc, hacq, hclaim, hh⟩ : ∃ s : State ℕ ℕ,
      (coordinationLts ℕ ℕ).Reachable s ∧ ∃ dl, s.deliveries 0 = some dl ∧
        dl.pc = .ended (.ok ()) ∧ Call.acquire ∈ dl.calls ∧ Call.claim ∈ dl.calls ∧
        s.handled 5 = true := ⟨_, h₁₀, _, rfl, rfl, by decide, by decide, rfl⟩
  obtain ⟨hsub, _, hrel, _⟩ := (settles_once h).1 0 dl hd
  exact ⟨s, dl, h, hd, hpc, hsub, hclaim, hrel _ hpc hacq, hh⟩

end Coordination

end Pyroflow
