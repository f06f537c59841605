import Pyroflow.Coordination.Settlement
import Pyroflow.Lib.KeyedLocks.Fairness

/-!
# The locks of one process

The deliveries of `Coordination`, with the locks of a `MemoryUpdateCoordinator`: a
dictionary of `TimedLock`s that holds them weakly (`KeyedLocks`). A delivery gets the lock
of its key from `coordinated.lock(update)`, waits for it in `acquire()`, and refers to it
until its end. `acquire()` is `asyncio.wait_for`: a timer may fire as the delivery waits,
which cancels the wait, and `acquire()` returns `False`.

The dictionary, `DefaultWeakValueDict`, is not part of the program. It is assumed that it
gives the lock it has for a key, or else makes one and keeps it as long as something refers
to it: it may drop a lock that no delivery refers to, and make another one for its key
later. So a delivery is taken to refer to its lock until its end. Of `safe_await`, which
gives the lock back, it is assumed that it awaits the release and does not raise.

The locks do not know who holds them, and `acquire()` returns long after a release has
called the delivery. Still they are mutexes by key: what the deliveries do with them is
what `coordinationLts` says (`memory_refines`).
-/

namespace Pyroflow

open Dispatcher

namespace Coordination

variable (Key Id : Type) in
/-- A state of the deliveries, of the locks of one process, and of the registry. -/
structure MemoryState where
  deliveries : ℕ → Option (Delivery Key Id)
  /-- `MemoryUpdateCoordinator.locks`. -/
  locks : KeyedLocks Key ℕ
  handled : Id → Bool

variable {Key Id : Type}

/-- As the other deliveries see it: which locks are taken. -/
def MemoryState.abs (s : MemoryState Key Id) : State Key Id :=
  ⟨s.deliveries, s.locks.locked, s.handled⟩

/-- The labels of the steps. -/
inductive MemoryLabel (Key Id : Type)
  | start (d : ℕ) (coordinatable : Bool) (key : Key) (id : Id)
  | deliver (d : ℕ) (event : DeliveryEvent)
  | expire (id : Id)
  /-- `acquire()` does not get the lock at once. -/
  | wait (d : ℕ)
  /-- The timer of `wait_for` fires. -/
  | timer (d : ℕ)
  /-- A delivery is over, and its reference to the lock gone. -/
  | drop (d : ℕ)
  /-- A lock is dropped from the dictionary. -/
  | collect (key : Key)

/-- What the other deliveries see of a step. -/
def MemoryLabel.abs : MemoryLabel Key Id → Option (Label Key Id)
  | .start d coordinatable key id => some (.start d coordinatable key id)
  | .deliver d e => some (.deliver d e)
  | .expire id => some (.expire id)
  | .wait _ | .timer _ | .drop _ | .collect _ => none

variable [DecidableEq Key]

/-- What an event of a delivery does to the locks. -/
inductive Uses (d : ℕ) (key : Key) : DeliveryEvent → KeyedLocks Key ℕ → KeyedLocks Key ℕ → Prop
  /-- `self.locks[self.build_key(key, "lock")]` -/
  | get {ls ls'} (step : ls.Step (.get d key) ls') : Uses d key (.lock true) ls ls'
  /-- `acquire()` takes the lock at once. -/
  | take {ls ls' k obj} (step : ls.Step (.acquire d) ls') (holds : ls'.points d = .holding k obj) :
      Uses d key (.acquire (some true)) ls ls'
  /-- It takes the lock it has waited for. -/
  | resume {ls ls' k obj} (step : ls.Step (.resume d) ls') (holds : ls'.points d = .holding k obj) :
      Uses d key (.acquire (some true)) ls ls'
  /-- The timer has fired. -/
  | giveUp {ls ls' k obj} (step : ls.Step (.resume d) ls') (has : ls'.points d = .has k obj) :
      Uses d key (.acquire (some false)) ls ls'
  /-- It has fired before the lock was asked for. -/
  | late {ls k obj} (has : ls.points d = .has k obj) : Uses d key (.acquire (some false)) ls ls
  | early {ls ls'} (step : ls.Step (.release d) ls') : Uses d key (.early .release) ls ls'
  | settle {ls ls'} (step : ls.Step (.release d) ls') : Uses d key (.settle .release) ls ls'
  /-- The other events do nothing to the locks. -/
  | quiet {ls e} (lock : e ≠ .lock true) (acquire : ∀ answer, e ≠ .acquire answer)
      (early : e ≠ .early .release) (settle : e ≠ .settle .release) : Uses d key e ls ls

variable [DecidableEq Id]

/-- The steps. -/
inductive MemoryStep : MemoryState Key Id → MemoryLabel Key Id → MemoryState Key Id → Prop
  | start {s d coordinatable key id} (new : s.deliveries d = none) :
      MemoryStep s (.start d coordinatable key id) { s with
        deliveries := Function.update s.deliveries d
          (some ⟨coordinatable, key, id, .coordinatable, none, none, []⟩) }
  | deliver {s d dl e a handled dl' locks} (found : s.deliveries d = some dl)
      (step : dl.Step s.handled e a handled dl') (uses : Uses d dl.key e s.locks locks) :
      MemoryStep s (.deliver d e) ⟨Function.update s.deliveries d (some dl'), locks, handled⟩
  | expire {s id} : MemoryStep s (.expire id) { s with
      handled := Function.update s.handled id false }
  | wait {s d dl locks k obj n} (found : s.deliveries d = some dl) (pc : dl.pc = .acquiring)
      (step : s.locks.Step (.acquire d) locks) (waits : locks.points d = .waiting k obj n) :
      MemoryStep s (.wait d) { s with locks := locks }
  | timer {s d locks} (step : s.locks.Step (.cancel d) locks) :
      MemoryStep s (.timer d) { s with locks := locks }
  | drop {s d dl o locks} (found : s.deliveries d = some dl) (pc : dl.pc = .ended o)
      (step : s.locks.Step (.drop d) locks) : MemoryStep s (.drop d) { s with locks := locks }
  | collect {s k locks} (step : s.locks.Step (.collect k) locks) :
      MemoryStep s (.collect k) { s with locks := locks }

variable (Key Id) in
/-- The deliveries and the locks of one process, as a transition system. -/
def memoryLts : Lts (MemoryState Key Id) (MemoryLabel Key Id) where
  init s := s = ⟨fun _ => none, {}, fun _ => false⟩
  step := MemoryStep

/-- The steps that meet a condition, as far as the other deliveries see them. -/
def Seen (P : State Key Id → Label Key Id → Prop) (s : MemoryState Key Id)
    (l : MemoryLabel Key Id) : Prop :=
  ∀ l' ∈ l.abs, P s.abs l'

variable {d : ℕ} {dl dl' : Delivery Key Id} {e : DeliveryEvent} {a : Mutex.Action Key}
  {handled handled' : Id → Bool} {ls ls' : KeyedLocks Key ℕ} {s s' : MemoryState Key Id}
  {l : MemoryLabel Key Id}

omit [DecidableEq Key] in
/-- The events that do nothing to the locks are those of the steps that do not. -/
theorem quiet_of_step (h : dl.Step handled e a handled' dl')
    (acquire : ∀ answer, e ≠ .acquire answer) (early : e ≠ .early .release)
    (settle : e ≠ .settle .release) : a = .keep := by
  cases h with
  | acquire => exact absurd rfl (acquire _)
  | early _ _ step =>
    cases step with
    | release => exact absurd rfl early
    | _ => rfl
  | settle _ _ step =>
    cases step with
    | release => exact absurd rfl settle
    | _ => rfl
  | _ => rfl

/-- A delivery refers to the lock of its key only, and holds it when it has acquired it. -/
structure Linked (dl : Delivery Key Id) (p : LockPoint Key) : Prop where
  holds : p.heldKey = dl.holds
  key : ∀ k obj, p.ref = some (k, obj) → k = dl.key

/-- A step of a delivery with the locks is one with the mutexes. -/
structure Links (d : ℕ) (dl' : Delivery Key Id) (a : Mutex.Action Key)
    (ls ls' : KeyedLocks Key ℕ) : Prop where
  inv : ls'.Inv
  enabled : a.Enabled ls.locked
  apply : ls'.locked = a.apply ls.locked
  linked : Linked dl' (ls'.points d)
  frame : ∀ d' ≠ d, ls'.points d' = ls.points d'
  step : ls' = ls ∨ ∃ lb, ls.Owned lb ∧ ls.Step lb ls'

omit [DecidableEq Id] in
/-- A step of the locks that does to the lock held what the delivery says. -/
theorem links_of_step {lb : KeyedLocks.Label Key ℕ} (hkey : dl'.key = dl.key)
    (hmoves : a.Moves dl.holds dl'.holds) (hl : Linked dl (ls.points d)) (hi : ls.Inv)
    (h : ls.Step lb ls') (hd : lb.actor = some d) (ho : ls.Owned lb)
    (hget : ∀ k, lb = .get d k → k = dl.key) (hholds : (ls'.points d).heldKey = dl'.holds) :
    Links d dl' a ls ls' := by
  obtain ⟨a', ha⟩ := h.action hi ho
  have hmoves' := ha.moves d hd
  rw [hl.holds, hholds] at hmoves'
  obtain rfl := hmoves'.unique hmoves
  refine ⟨h.inv hi ho, ha.enabled, ha.apply, ⟨hholds, fun k obj hr => ?_⟩,
    fun d' hne => ha.frame d' ?_, .inr ⟨lb, ho, h⟩⟩
  · rw [hkey]
    exact (h.ref_cases hr).elim (hl.key k obj) (hget k)
  · rw [hd, ne_eq, Option.some.injEq]
    exact Ne.symm hne

/-- What the events of a delivery do to the locks they do to the mutexes. -/
theorem Uses.links (hu : Uses d dl.key e ls ls') (hst : dl.Step handled e a handled' dl')
    (hp : dl.Phase) (hl : Linked dl (ls.points d)) (hi : ls.Inv) : Links d dl' a ls ls' := by
  have hmoves := hst.moves hp
  -- Nothing happens to the locks.
  have hkeep : a = .keep → ls' = ls → Links d dl' a ls ls' := by
    rintro rfl rfl
    refine ⟨hi, trivial, rfl, ⟨hl.holds.trans hmoves, fun k obj hr => ?_⟩, fun _ _ => rfl, .inl rfl⟩
    rw [hst.update_eq.1]
    exact hl.key k obj hr
  have hreleases : ls.Step (.release d) ls' → a = .release dl.key → Links d dl' a ls ls' := by
    rintro step rfl
    have hold := hl.holds.trans hmoves.1
    obtain ⟨obj, hpt⟩ := LockPoint.heldKey_eq_some_iff.1 hold
    refine links_of_step hst.update_eq.1 hmoves hl hi step rfl ?_ (fun _ h => absurd h nofun) ?_
    · rintro _ ⟨⟩
      exact ⟨_, _, hpt⟩
    · rw [hmoves.2]
      cases step with
      | release => simp
  have hunowned : ∀ {lb : KeyedLocks.Label Key ℕ}, (∀ o, lb ≠ .release o) → ls.Owned lb :=
    fun h o ho => absurd ho (h o)
  cases hu with
  | get step =>
    obtain rfl : a = .keep := by
      cases hst
      rfl
    refine links_of_step hst.update_eq.1 hmoves hl hi step rfl (hunowned nofun) ?_ ?_
    · rintro k ⟨⟩
      rfl
    · rw [← hmoves, ← hl.holds]
      cases step with
      | get idle | make idle => simp [idle]
  | take step hold | resume step hold =>
    obtain rfl : a = .acquire dl.key := by
      cases hst
      rfl
    refine links_of_step hst.update_eq.1 hmoves hl hi step rfl (hunowned nofun)
      (fun _ h => absurd h nofun) ?_
    rw [hmoves.2, hold]
    exact congrArg some (hl.key _ _ ((step.ref_cases (by rw [hold]; rfl)).resolve_right nofun))
  | giveUp step has =>
    obtain rfl : a = .keep := by
      cases hst
      rfl
    refine links_of_step hst.update_eq.1 hmoves hl hi step rfl (hunowned nofun)
      (fun _ h => absurd h nofun) ?_
    rw [← hmoves, ← hl.holds, has]
    cases step with
    | resume waits | giveUp waits => rw [waits]; rfl
  | late =>
    cases hst with
    | timeout => exact hkeep rfl rfl
  | early step =>
    cases hst with
    | early rel early estep =>
      cases estep with
      | release => exact hreleases step rfl
  | settle step =>
    cases hst with
    | settle pc rel sstep =>
      cases sstep with
      | release => exact hreleases step rfl
  | quiet _ acquire early settle => exact hkeep (quiet_of_step hst acquire early settle) rfl

/-- The deliveries and the locks agree on who holds what. -/
structure MemoryState.Agrees (s : MemoryState Key Id) : Prop where
  inv : s.locks.Inv
  linked : ∀ d dl, s.deliveries d = some dl → Linked dl (s.locks.points d)
  idle : ∀ d, s.deliveries d = none → s.locks.points d = .idle

omit [DecidableEq Id] in
/-- A delivery and the locks take a step together. -/
theorem MemoryState.Agrees.update (hs : s.Agrees) (h : Links d dl' a s.locks ls') :
    MemoryState.Agrees ⟨Function.update s.deliveries d (some dl'), ls', handled⟩ := by
  refine ⟨h.inv, fun d' dl₁ hd' => ?_, fun d' hd' => ?_⟩
  · by_cases hdd : d' = d
    · subst hdd
      simp only [Function.update_self, Option.some.injEq] at hd'
      exact hd' ▸ h.linked
    · simp only [Function.update_of_ne hdd] at hd' ⊢
      exact h.frame d' hdd ▸ hs.linked d' dl₁ hd'
  · have hdd : d' ≠ d := by
      rintro rfl
      simp at hd'
    simp only [Function.update_of_ne hdd] at hd'
    exact (h.frame d' hdd).trans (hs.idle d' hd')

omit [DecidableEq Id] in
/-- What happens to the locks between the events of a delivery the others do not see. -/
theorem MemoryState.Agrees.internal {lb : KeyedLocks.Label Key ℕ} (hs : s.Agrees)
    (hd : s.deliveries d = some dl) (h : s.locks.Step lb ls') (hlb : lb.actor = some d)
    (ho : ∀ o, lb ≠ .release o) (hget : ∀ k, lb ≠ .get d k)
    (hkey : (ls'.points d).heldKey = (s.locks.points d).heldKey) :
    MemoryState.Agrees { s with locks := ls' } ∧ ls'.locked = s.locks.locked := by
  have hl := hs.linked d dl hd
  have hlinks : Links d dl .keep s.locks ls' := links_of_step rfl rfl hl hs.inv h hlb
    (fun o h => absurd h (ho o)) (fun k h => absurd h (hget k)) (hkey.trans hl.holds)
  have hs' : MemoryState.Agrees ⟨Function.update s.deliveries d (some dl), ls', s.handled⟩ :=
    hs.update hlinks
  rw [← hd, Function.update_eq_self] at hs'
  exact ⟨hs', hlinks.apply⟩

/-- The steps with the locks are those with the mutexes, but for what the others do not see. -/
theorem MemoryStep.simulates (h : MemoryStep s l s') (hs : s.Agrees)
    (hp : ∀ d dl, s.deliveries d = some dl → dl.Phase) :
    s'.Agrees ∧ (∀ l' ∈ l.abs, Step s.abs l' s'.abs) ∧ (l.abs = none → s'.abs = s.abs) ∧
      (s'.locks = s.locks ∨ ∃ lb, s.locks.Owned lb ∧ s.locks.Step lb s'.locks) := by
  have habs : ∀ {ls'}, ls'.locked = s.locks.locked →
      MemoryState.abs { s with locks := ls' } = s.abs := fun h => by
    rw [MemoryState.abs, MemoryState.abs, h]
  have hinternal : ∀ {lb : KeyedLocks.Label Key ℕ}, (∀ o, lb ≠ .release o) → s.locks.Owned lb :=
    fun h o ho => absurd ho (h o)
  cases h with
  | start new =>
    have hidle := hs.idle _ new
    refine ⟨hs.update (a := .keep)
      ⟨hs.inv, trivial, rfl, ⟨?_, ?_⟩, fun _ _ => rfl, .inl rfl⟩, ?_, nofun, .inl rfl⟩
    · rw [hidle]
      rfl
    · rw [hidle]
      exact nofun
    · rintro _ ⟨⟩
      exact .start new
  | deliver found step uses =>
    have hlinks := uses.links step (hp _ _ found) (hs.linked _ _ found) hs.inv
    refine ⟨hs.update hlinks, ?_, nofun, hlinks.step⟩
    rintro _ ⟨⟩
    rw [MemoryState.abs, MemoryState.abs, hlinks.apply]
    exact .deliver found step hlinks.enabled
  | expire =>
    refine ⟨⟨hs.inv, hs.linked, hs.idle⟩, ?_, nofun, .inl rfl⟩
    rintro _ ⟨⟩
    exact .expire
  | @wait d dl locks k obj n found pc step waits =>
    have hkey : (locks.points d).heldKey = (s.locks.points d).heldKey := by
      cases step with
      | take => simp at waits
      | wait has => rw [waits, has]; rfl
    obtain ⟨hs', hlocked⟩ := hs.internal found step rfl nofun nofun hkey
    exact ⟨hs', nofun, fun _ => habs hlocked, .inr ⟨.acquire d, hinternal nofun, step⟩⟩
  | @timer d locks step =>
    obtain ⟨hpt, hkey⟩ : s.locks.points d ≠ .idle ∧
        (locks.points d).heldKey = (s.locks.points d).heldKey := by
      cases step with
      | cancel waits => simp [waits]
    obtain ⟨dl, found⟩ := Option.ne_none_iff_exists'.1 fun h => hpt (hs.idle d h)
    obtain ⟨hs', hlocked⟩ := hs.internal found step rfl nofun nofun hkey
    exact ⟨hs', nofun, fun _ => habs hlocked, .inr ⟨.cancel d, hinternal nofun, step⟩⟩
  | @drop d dl o locks found pc step =>
    have hkey : (locks.points d).heldKey = (s.locks.points d).heldKey := by
      cases step with
      | drop has => simp [has]
    obtain ⟨hs', hlocked⟩ := hs.internal found step rfl nofun nofun hkey
    exact ⟨hs', nofun, fun _ => habs hlocked, .inr ⟨.drop d, hinternal nofun, step⟩⟩
  | @collect k locks step =>
    have hown : s.locks.Owned (.collect k) := nofun
    obtain ⟨a, ha⟩ := step.action hs.inv hown
    obtain rfl := ha.keep rfl
    refine ⟨⟨step.inv hs.inv hown, fun d dl hd => ?_, fun d hd => ?_⟩, nofun,
      fun _ => habs ha.apply, .inr ⟨_, hown, step⟩⟩
    · exact (ha.frame d nofun).symm ▸ hs.linked d dl hd
    · exact (ha.frame d nofun).trans (hs.idle d hd)

variable {P : State Key Id → Label Key Id → Prop}

/-- The deliveries and the locks, in the runs that meet a condition the others see. -/
theorem agrees_of_reachable (h : (memoryLts Key Id).ReachableUnder (Seen P) s) :
    s.Agrees ∧ (coordinationLts Key Id).ReachableUnder P s.abs := by
  refine h.invariant (I := fun s => s.Agrees ∧ (coordinationLts Key Id).ReachableUnder P s.abs) ?_ ?_
  · rintro _ rfl
    exact ⟨⟨KeyedLocks.inv_new, fun _ _ h => absurd h nofun, fun _ _ => rfl⟩, .init rfl⟩
  · rintro s l s' ⟨hs, hr⟩ hP hst
    obtain ⟨hs', hstep, hkeep, -⟩ := hst.simulates hs fun d dl hd => phase_of_reachable hr hd
    refine ⟨hs', ?_⟩
    cases hl : l.abs with
    | none => exact hkeep hl ▸ hr
    | some l' => exact hr.tail (hP l' hl) (hstep l' hl)

/-- The locks of one process are mutexes by key. What the deliveries do with them in a run is a
    run of the deliveries with a mutex for each key, under whatever condition; who holds the
    lock object of a key holds the mutex of the key; and at no time do two deliveries refer to
    two locks of one key. -/
theorem memory_refines (h : (memoryLts Key Id).ReachableUnder (Seen P) s) :
    (coordinationLts Key Id).ReachableUnder P s.abs ∧
      (∀ d, (s.locks.points d).heldKey = s.abs.holds d) ∧
      ∀ d d' k obj obj', (s.locks.points d).ref = some (k, obj) →
        (s.locks.points d').ref = some (k, obj') → obj = obj' := by
  obtain ⟨hs, hr⟩ := agrees_of_reachable h
  refine ⟨hr, fun d => ?_, fun d d' k obj obj' hd hd' => ?_⟩
  · cases hd : s.deliveries d with
    | none => simp [hs.idle d hd, State.holds, MemoryState.abs, hd]
    | some dl => simp [(hs.linked d dl hd).holds, State.holds, MemoryState.abs, hd]
  · -- Both find it in the dictionary.
    have h₁ := hs.inv.refs d k obj hd
    have h₂ := hs.inv.refs d' k obj' hd'
    exact Option.some.inj (h₁.symm.trans h₂)

/-- An update waits for the lock of its key, which another one holds. -/
theorem reachable_waiting : ∃ s : MemoryState ℕ ℕ,
    (memoryLts ℕ ℕ).ReachableUnder (Seen fun _ _ => True) s ∧
      (s.deliveries 1).map Delivery.pc = some .acquiring ∧ s.deliveries 2 = none ∧
      s.locks.points 0 = .holding 7 0 ∧ s.locks.points 1 = .waiting 7 0 0 ∧
      (s.locks.objects 0).waiters = [(1, .pending)] := by
  have h₀ : (memoryLts ℕ ℕ).ReachableUnder (Seen fun _ _ => True) _ := .init rfl
  have h₁ := h₀.tail (l := MemoryLabel.start 0 true 7 1) (fun _ _ => trivial) (.start rfl)
  have h₂ := h₁.tail (l := MemoryLabel.deliver 0 (.coordinatable true)) (fun _ _ => trivial)
    (.deliver rfl (.coordinatable rfl rfl) (.quiet nofun nofun nofun nofun))
  have h₃ := h₂.tail (l := MemoryLabel.deliver 0 (.lock true)) (fun _ _ => trivial)
    (.deliver rfl (.lock rfl) (.get (.make rfl rfl)))
  have h₄ := h₃.tail (l := MemoryLabel.deliver 0 (.acquire (some true))) (fun _ _ => trivial)
    (.deliver rfl (.acquire rfl) (.take (.take rfl rfl) rfl))
  have h₅ := h₄.tail (l := MemoryLabel.start 1 true 7 2) (fun _ _ => trivial) (.start rfl)
  have h₆ := h₅.tail (l := MemoryLabel.deliver 1 (.coordinatable true)) (fun _ _ => trivial)
    (.deliver rfl (.coordinatable rfl rfl) (.quiet nofun nofun nofun nofun))
  have h₇ := h₆.tail (l := MemoryLabel.deliver 1 (.lock true)) (fun _ _ => trivial)
    (.deliver rfl (.lock rfl) (.get (.get rfl rfl)))
  have h₈ := h₇.tail (l := MemoryLabel.wait 1) (fun _ _ => trivial) (.wait rfl rfl (.wait rfl rfl) rfl)
  exact ⟨_, h₈, rfl, rfl, rfl, rfl, rfl⟩

theorem memory_refines_waiting : ∃ s : MemoryState ℕ ℕ,
    (memoryLts ℕ ℕ).ReachableUnder (Seen fun _ _ => True) s ∧ s.locks.points 1 = .waiting 7 0 0 ∧
      (coordinationLts ℕ ℕ).Reachable s.abs ∧ s.abs.holds 0 = some 7 := by
  obtain ⟨s, hr, -, -, hold, hw, -⟩ := reachable_waiting
  obtain ⟨habs, hholds, -⟩ := memory_refines hr
  exact ⟨s, hr, hw, habs, by rw [← hholds, hold]; rfl⟩

end Coordination

end Pyroflow
