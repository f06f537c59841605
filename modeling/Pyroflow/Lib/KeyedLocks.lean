import Pyroflow.Lib.AsyncLock
import Pyroflow.Lib.Lts
import Pyroflow.Lib.Mutex

/-!
# Locks by key, held weakly

A dictionary from keys to locks that makes a lock when it is asked for one it does not have,
and that does not keep its locks alive: once no task refers to a lock, it may be collected, and
its key is missing again (`KeyedLocks`). The locks are fair (`AsyncLock`), and free whoever
releases them.

A task first gets the lock of a key, then acquires it, maybe waiting, releases it, and at last
drops its reference (`KeyedLocks.Step`). In the runs where only the task that holds a lock
releases it (`KeyedLocks.Owned`), the tasks that refer to a lock of a key all refer to the same
one (`KeyedLocks.Inv`), and the locks are mutexes by key: each step is an action on the key
(`KeyedLocks.Step.action`), as if there was one lock for each key at all times.

That nobody is overtaken and nobody starves is shown in `Pyroflow.Lib.KeyedLocks.Fairness`.
-/

/-- Where a task is with a lock. -/
inductive LockPoint (K : Type*)
  | idle
  /-- It refers to the lock. -/
  | has (k : K) (obj : ℕ)
  /-- It waits for the lock, having drawn a number. -/
  | waiting (k : K) (obj n : ℕ)
  | holding (k : K) (obj : ℕ)

namespace LockPoint

variable {K : Type*}

/-- The lock a task refers to, and the key it got it for. -/
def ref : LockPoint K → Option (K × ℕ)
  | .idle => none
  | .has k obj | .waiting k obj _ | .holding k obj => some (k, obj)

/-- The lock a task holds. -/
def held : LockPoint K → Option ℕ
  | .holding _ obj => some obj
  | _ => none

/-- The key whose lock a task holds. -/
def heldKey : LockPoint K → Option K
  | .holding k _ => some k
  | _ => none

/-- The number a waiting task has drawn. -/
def number : LockPoint K → ℕ
  | .waiting _ _ n => n
  | _ => 0

/-- The task waits for the lock. -/
def WaitsFor (obj : ℕ) : LockPoint K → Prop
  | .waiting _ obj' _ => obj' = obj
  | _ => False

variable {p : LockPoint K} {k : K} {obj n : ℕ}

theorem WaitsFor.exists_eq (h : p.WaitsFor obj) : ∃ k n, p = .waiting k obj n := by
  cases p with
  | waiting k obj' n =>
    obtain rfl : obj' = obj := h
    exact ⟨k, n, rfl⟩
  | _ => exact h.elim

theorem WaitsFor.ref (h : p.WaitsFor obj) : ∃ k, p.ref = some (k, obj) := by
  obtain ⟨k, n, rfl⟩ := h.exists_eq
  exact ⟨k, rfl⟩

@[simp] theorem heldKey_idle : (idle : LockPoint K).heldKey = none := rfl
@[simp] theorem heldKey_has : (has k obj).heldKey = none := rfl
@[simp] theorem heldKey_waiting : (waiting k obj n).heldKey = none := rfl
@[simp] theorem heldKey_holding : (holding k obj).heldKey = some k := rfl

theorem held_eq_some_iff : p.held = some obj ↔ ∃ k, p = .holding k obj := by
  cases p <;> simp [held]

theorem heldKey_eq_some_iff : p.heldKey = some k ↔ ∃ obj, p = .holding k obj := by
  cases p <;> simp

theorem ref_of_held (h : p.held = some obj) : ∃ k, p.ref = some (k, obj) := by
  obtain ⟨k, rfl⟩ := held_eq_some_iff.1 h
  exact ⟨k, rfl⟩

end LockPoint

/-- A dictionary of locks, held weakly, and the tasks that use them. -/
structure KeyedLocks (K O : Type*) where
  /-- The locks found under the keys. -/
  dict : K → Option ℕ := fun _ => none
  objects : ℕ → AsyncLock O := fun _ => {}
  /-- How many locks have been made. -/
  made : ℕ := 0
  points : O → LockPoint K := fun _ => .idle
  /-- The next number to draw. -/
  next : ℕ := 0
  /-- How often each lock has been taken. -/
  grants : ℕ → ℕ := fun _ => 0

namespace KeyedLocks

variable {K O : Type*}

/-- What happens: a task gets the lock of a key, asks for it, is cancelled as it waits, resumes,
    releases the lock, or drops it; or the lock of a key is collected. -/
inductive Label (K O : Type*)
  | get (o : O) (k : K)
  | acquire (o : O)
  | cancel (o : O)
  | resume (o : O)
  | release (o : O)
  | drop (o : O)
  | collect (k : K)

variable [DecidableEq K] [DecidableEq O]

/-- A task comes to another point, and the lock it refers to changes. -/
def set (s : KeyedLocks K O) (o : O) (obj : ℕ) (p : LockPoint K) (l : AsyncLock O) :
    KeyedLocks K O :=
  { s with objects := Function.update s.objects obj l, points := Function.update s.points o p }

omit [DecidableEq K] in
@[simp] theorem set_points (s : KeyedLocks K O) (o : O) (obj : ℕ) (p : LockPoint K)
    (l : AsyncLock O) : (s.set o obj p l).points = Function.update s.points o p := rfl

/-- A lock is counted as taken once more. -/
def grant (s : KeyedLocks K O) (obj : ℕ) : KeyedLocks K O :=
  { s with grants := Function.update s.grants obj (s.grants obj + 1) }

omit [DecidableEq K] [DecidableEq O] in
@[simp] theorem grant_points (s : KeyedLocks K O) (obj : ℕ) :
    (s.grant obj).points = s.points := rfl

/-- The steps. -/
inductive Step : KeyedLocks K O → Label K O → KeyedLocks K O → Prop
  | get {s o k obj} (idle : s.points o = .idle) (found : s.dict k = some obj) :
      Step s (.get o k) { s with points := Function.update s.points o (.has k obj) }
  /-- The key is missing: a lock is made. -/
  | make {s o k} (idle : s.points o = .idle) (missing : s.dict k = none) :
      Step s (.get o k) {
        dict := Function.update s.dict k (some s.made)
        objects := Function.update s.objects s.made {}
        made := s.made + 1
        points := Function.update s.points o (.has k s.made)
        next := s.next
        grants := s.grants }
  | take {s o k obj l} (has : s.points o = .has k obj)
      (taken : (s.objects obj).acquire o = (true, l)) :
      Step s (.acquire o) ((s.set o obj (.holding k obj) l).grant obj)
  | wait {s o k obj l} (has : s.points o = .has k obj)
      (busy : (s.objects obj).acquire o = (false, l)) :
      Step s (.acquire o) { s.set o obj (.waiting k obj s.next) l with next := s.next + 1 }
  | cancel {s o k obj n} (waits : s.points o = .waiting k obj n) :
      Step s (.cancel o) (s.set o obj (.waiting k obj n) ((s.objects obj).cancel o))
  | resume {s o k obj n l} (waits : s.points o = .waiting k obj n)
      (resumed : (s.objects obj).resume o = some (true, l)) :
      Step s (.resume o) ((s.set o obj (.holding k obj) l).grant obj)
  /-- It resumes without the lock. -/
  | giveUp {s o k obj n l} (waits : s.points o = .waiting k obj n)
      (resumed : (s.objects obj).resume o = some (false, l)) :
      Step s (.resume o) (s.set o obj (.has k obj) l)
  /-- Whether it holds the lock or not. -/
  | release {s o k obj l} (refers : s.points o = .has k obj ∨ s.points o = .holding k obj)
      (released : (s.objects obj).release = some l) :
      Step s (.release o) (s.set o obj (.has k obj) l)
  | drop {s o k obj} (has : s.points o = .has k obj) :
      Step s (.drop o) { s with points := Function.update s.points o .idle }
  /-- No task refers to the lock. -/
  | collect {s k obj} (found : s.dict k = some obj)
      (dead : ∀ o k', (s.points o).ref ≠ some (k', obj)) :
      Step s (.collect k) { s with dict := Function.update s.dict k none }

variable (K O) in
/-- The locks and the tasks, as a transition system. -/
def keyedLocksLts : Lts (KeyedLocks K O) (Label K O) where
  init s := s = {}
  step := Step

/-- A task that releases a lock holds it. -/
def Owned (s : KeyedLocks K O) (l : Label K O) : Prop :=
  ∀ o, l = .release o → ∃ k obj, s.points o = .holding k obj

/-! ### The invariant -/

/-- The tasks that refer to a lock of a key find it in the dictionary, and the locks are held by
    those who took them. -/
structure Inv (s : KeyedLocks K O) : Prop where
  refs : ∀ o k obj, (s.points o).ref = some (k, obj) → s.dict k = some obj
  lt_made : ∀ k obj, s.dict k = some obj → obj < s.made
  inj : ∀ k k' obj, s.dict k = some obj → s.dict k' = some obj → k = k'
  wellFormed : ∀ obj, (s.objects obj).WellFormed
  waits : ∀ obj o, o ∈ (s.objects obj).waiters.map Prod.fst ↔ (s.points o).WaitsFor obj
  guards : Mutex.Guards (fun obj => (s.objects obj).locked) fun o => (s.points o).held
  lt_next : ∀ o obj, (s.points o).WaitsFor obj → (s.points o).number < s.next
  /-- The tasks wait in the order of their numbers. -/
  sorted : ∀ obj, ((s.objects obj).waiters.map Prod.fst).Pairwise fun o o' =>
    (s.points o).number < (s.points o').number

omit [DecidableEq K] [DecidableEq O] in
/-- At first there are no locks. -/
theorem inv_new : ({} : KeyedLocks K O).Inv where
  refs := nofun
  lt_made := nofun
  inj := nofun
  wellFormed _ := AsyncLock.wellFormed_new
  waits _ _ := iff_of_false List.not_mem_nil id
  guards := .free (fun _ => rfl) fun _ => rfl
  lt_next _ _ h := h.elim
  sorted _ := .nil

variable {s s' : KeyedLocks K O} {o : O} {k : K} {obj : ℕ} {p : LockPoint K} {l : AsyncLock O}

omit [DecidableEq K] in
/-- The order of the tasks does not depend on those that do not wait. -/
theorem pairwise_update {os : List O} {points : O → LockPoint K}
    (h : os.Pairwise fun o₁ o₂ => (points o₁).number < (points o₂).number) (ho : o ∉ os) :
    os.Pairwise fun o₁ o₂ =>
      (Function.update points o p o₁).number < (Function.update points o p o₂).number := by
  refine h.imp_of_mem fun {o₁ o₂} h₁ h₂ hlt => ?_
  rwa [Function.update_of_ne (ne_of_mem_of_not_mem h₁ ho),
    Function.update_of_ne (ne_of_mem_of_not_mem h₂ ho)]

omit [DecidableEq K] in
/-- A task does something to the lock it refers to. -/
theorem Inv.set (hs : s.Inv) (href : (s.points o).ref = some (k, obj))
    (hp : p.ref = some (k, obj)) (hl : l.WellFormed) {a : Mutex.Action ℕ}
    (ha : a.Enabled fun obj => (s.objects obj).locked)
    (hlocked : (fun obj' => (Function.update s.objects obj l obj').locked) =
      a.apply fun obj => (s.objects obj).locked)
    (hmoves : a.Moves (s.points o).held p.held)
    (hwaits : ∀ o', o' ∈ l.waiters.map Prod.fst ↔
      if o' = o then p.WaitsFor obj else o' ∈ (s.objects obj).waiters.map Prod.fst)
    {n : ℕ} (hn : s.next ≤ n) {g : ℕ → ℕ} (hnumber : p.WaitsFor obj → p.number < n)
    (hsorted : (l.waiters.map Prod.fst).Pairwise fun o₁ o₂ =>
      (Function.update s.points o p o₁).number < (Function.update s.points o p o₂).number) :
    ({ s.set o obj p l with next := n, grants := g }).Inv := by
  -- The task refers to no other lock, before or after.
  have hother : ∀ {p : LockPoint K} {obj'}, p.ref = some (k, obj) → p.WaitsFor obj' →
      obj' = obj := by
    intro p obj' hp hw
    obtain ⟨k', hk'⟩ := hw.ref
    rw [hp] at hk'
    exact congrArg Prod.snd (Option.some.inj hk').symm
  refine ⟨?_, hs.lt_made, hs.inj, fun obj' => ?_, fun obj' o' => ?_, ?_, fun o' obj' hw => ?_,
    fun obj' => ?_⟩
  · intro o' k' obj' h
    simp only [KeyedLocks.set, Function.update_apply] at h
    split at h
    · exact hs.refs o k' obj' (href.trans (hp.symm.trans h))
    · exact hs.refs o' k' obj' h
  · simp only [KeyedLocks.set, Function.update_apply]
    split
    · exact hl
    · exact hs.wellFormed obj'
  · simp only [KeyedLocks.set, Function.update_apply]
    by_cases hobj : obj' = obj
    · subst hobj
      rw [if_pos rfl, hwaits]
      by_cases ho : o' = o
      · rw [if_pos ho, if_pos ho]
      · rw [if_neg ho, if_neg ho, hs.waits]
    · rw [if_neg hobj, hs.waits]
      by_cases ho : o' = o
      · subst ho
        rw [if_pos rfl]
        exact iff_of_false (fun h => hobj (hother href h)) fun h => hobj (hother hp h)
      · rw [if_neg ho]
  · have hheld : (fun o' => (Function.update s.points o p o').held) =
        Function.update (fun o' => (s.points o').held) o p.held := by
      funext o'
      exact Function.apply_update (fun _ => LockPoint.held) s.points o p o'
    have hguards := hs.guards.act ha hmoves
    rw [← hlocked, ← hheld] at hguards
    exact hguards
  · simp only [KeyedLocks.set, Function.update_apply] at hw ⊢
    split
    case isTrue ho =>
      rw [if_pos ho] at hw
      exact hnumber (hother hp hw ▸ hw)
    case isFalse ho =>
      rw [if_neg ho] at hw
      exact Nat.lt_of_lt_of_le (hs.lt_next o' obj' hw) hn
  · simp only [KeyedLocks.set]
    by_cases hobj : obj' = obj
    · subst hobj
      rw [Function.update_self]
      exact hsorted
    · rw [Function.update_of_ne hobj]
      -- The task does not wait for the other lock.
      refine pairwise_update (hs.sorted obj') fun ho => hobj ?_
      exact hother href ((hs.waits obj' o).1 ho)

omit [DecidableEq K] in
/-- A task comes to refer to another lock, or to none, when it neither waits nor holds one. -/
theorem Inv.move (hs : s.Inv) (hheld : (s.points o).held = none)
    (hwaits : ∀ obj, ¬(s.points o).WaitsFor obj) (hheld' : p.held = none)
    (hwaits' : ∀ obj, ¬p.WaitsFor obj)
    (hfound : ∀ k obj, p.ref = some (k, obj) → s.dict k = some obj) :
    ({ s with points := Function.update s.points o p }).Inv := by
  refine ⟨fun o' k' obj' h => ?_, hs.lt_made, hs.inj, hs.wellFormed, fun obj' o' => ?_, ?_,
    fun o' obj' h => ?_, fun obj' => ?_⟩
  · simp only [Function.update_apply] at h
    split at h
    · exact hfound k' obj' h
    · exact hs.refs o' k' obj' h
  · simp only [Function.update_apply]
    split
    case isTrue ho =>
      subst ho
      exact (hs.waits obj' o').trans (iff_of_false (hwaits obj') (hwaits' obj'))
    case isFalse => exact hs.waits obj' o'
  · have hguards := hs.guards.keep (hheld.trans hheld'.symm)
    have heq : (fun o' => (Function.update s.points o p o').held) =
        Function.update (fun o' => (s.points o').held) o p.held := by
      funext o'
      exact Function.apply_update (fun _ => LockPoint.held) s.points o p o'
    exact heq ▸ hguards
  · simp only [Function.update_apply] at h ⊢
    split at h
    · exact absurd h (hwaits' obj')
    case isFalse ho =>
      rw [if_neg ho]
      exact hs.lt_next o' obj' h
  · exact pairwise_update (hs.sorted obj') fun ho => hwaits obj' ((hs.waits obj' o).1 ho)

omit [DecidableEq K] [DecidableEq O] in
/-- Nobody refers to a lock that has not been made. -/
theorem Inv.ref_ne_made (hs : s.Inv) (o : O) (k : K) : (s.points o).ref ≠ some (k, s.made) :=
  fun h => Nat.lt_irrefl _ (hs.lt_made k _ (hs.refs o k _ h))

omit [DecidableEq O] in
/-- A lock is made under a key that is missing. -/
theorem Inv.make (hs : s.Inv) (missing : s.dict k = none) :
    ({ s with
      dict := Function.update s.dict k (some s.made)
      objects := Function.update s.objects s.made {}
      made := s.made + 1 } : KeyedLocks K O).Inv := by
  have hfresh : ∀ k', s.dict k' ≠ some s.made := fun k' h => Nat.lt_irrefl _ (hs.lt_made k' _ h)
  have hunlocked : (s.objects s.made).locked = false := by
    rw [Bool.eq_false_iff]
    intro h
    obtain ⟨o, ho⟩ := (hs.guards.taken_iff s.made).1 h
    obtain ⟨k', hk'⟩ := LockPoint.ref_of_held ho
    exact hs.ref_ne_made o k' hk'
  refine ⟨fun o' k' obj' h => ?_, fun k' obj' h => ?_, fun k₁ k₂ obj' h₁ h₂ => ?_, fun obj' => ?_,
    fun obj' o' => ?_, ?_, hs.lt_next, fun obj' => ?_⟩
  · have hfound := hs.refs o' k' obj' h
    have hne : k' ≠ k := by
      rintro rfl
      exact absurd (missing.symm.trans hfound) nofun
    rw [← hfound]
    exact Function.update_of_ne hne _ _
  · simp only [Function.update_apply] at h
    split at h
    · rw [← Option.some.inj h]
      exact Nat.lt_succ_self _
    · exact Nat.lt_succ_of_lt (hs.lt_made k' obj' h)
  · simp only [Function.update_apply] at h₁ h₂
    split at h₁ <;> split at h₂
    case isTrue.isTrue hk₁ hk₂ => rw [hk₁, hk₂]
    case isTrue.isFalse => exact absurd (Option.some.inj h₁ ▸ h₂) (hfresh k₂)
    case isFalse.isTrue => exact absurd (Option.some.inj h₂ ▸ h₁) (hfresh k₁)
    case isFalse.isFalse => exact hs.inj k₁ k₂ obj' h₁ h₂
  · simp only [Function.update_apply]
    split
    · exact AsyncLock.wellFormed_new
    · exact hs.wellFormed obj'
  · simp only [Function.update_apply]
    split
    case isTrue hobj =>
      refine iff_of_false List.not_mem_nil fun h => ?_
      obtain ⟨k', hk'⟩ := h.ref
      exact hs.ref_ne_made o' k' (hobj ▸ hk')
    case isFalse => exact hs.waits obj' o'
  · have heq : (fun obj' => (Function.update s.objects s.made {} obj').locked) =
        fun obj' => (s.objects obj').locked := by
      funext obj'
      rw [Function.update_apply]
      split
      case isTrue hobj => rw [hobj, hunlocked]
      case isFalse => rfl
    exact heq ▸ hs.guards
  · simp only [Function.update_apply]
    split
    · exact .nil
    · exact hs.sorted obj'

omit [DecidableEq O] in
/-- A lock that no task refers to is collected. -/
theorem Inv.collect (hs : s.Inv) (found : s.dict k = some obj)
    (dead : ∀ o k', (s.points o).ref ≠ some (k', obj)) :
    ({ s with dict := Function.update s.dict k none } : KeyedLocks K O).Inv := by
  have hold : ∀ {k' obj'}, Function.update s.dict k none k' = some obj' → s.dict k' = some obj' := by
    intro k' obj' h
    rw [Function.update_apply] at h
    split at h
    · exact absurd h nofun
    · exact h
  refine ⟨fun o' k' obj' h => ?_, fun k' obj' h => hs.lt_made k' obj' (hold h),
    fun k₁ k₂ obj' h₁ h₂ => hs.inj k₁ k₂ obj' (hold h₁) (hold h₂), hs.wellFormed, hs.waits, hs.guards,
    hs.lt_next, hs.sorted⟩
  have hfound := hs.refs o' k' obj' h
  have hne : k' ≠ k := by
    rintro rfl
    exact dead o' k' (Option.some.inj (found.symm.trans hfound) ▸ h)
  rw [← hfound]
  exact Function.update_of_ne hne _ _

/-! ### The steps keep the invariant -/

omit [DecidableEq K] [DecidableEq O] in
/-- Who refers to a lock waits for it if it is among those that wait. -/
theorem Inv.notMem_waiters (hs : s.Inv) (hwaits : ¬(s.points o).WaitsFor obj) :
    o ∉ (s.objects obj).waiters.map Prod.fst :=
  fun h => hwaits ((hs.waits obj o).1 h)

omit [DecidableEq K] [DecidableEq O] in
theorem locked_update {objects : ℕ → AsyncLock O} {b : Bool} (hl : l.locked = b) :
    (fun obj' => (Function.update objects obj l obj').locked) =
      Function.update (fun obj' => (objects obj').locked) obj b := by
  funext obj'
  rw [← hl]
  exact Function.apply_update (fun _ => AsyncLock.locked) objects obj l obj'

omit [DecidableEq K] [DecidableEq O] in
theorem locked_update_same {objects : ℕ → AsyncLock O} (hl : l.locked = (objects obj).locked) :
    (fun obj' => (Function.update objects obj l obj').locked) = fun obj' => (objects obj').locked := by
  rw [locked_update hl, Function.update_eq_self]

omit [DecidableEq K] in
/-- The order of those that wait behind a task that leaves. -/
theorem pairwise_others
    (h : (l.waiters.map Prod.fst).Pairwise fun o₁ o₂ => (s.points o₁).number < (s.points o₂).number) :
    ((l.others o).map Prod.fst).Pairwise fun o₁ o₂ =>
      (Function.update s.points o p o₁).number < (Function.update s.points o p o₂).number :=
  pairwise_update (h.sublist AsyncLock.map_fst_others_sublist) fun h =>
    (AsyncLock.mem_map_fst_others.1 h).1 rfl

/-- The steps keep the invariant. -/
theorem Step.inv {lb : Label K O} (h : Step s lb s') (hs : s.Inv) (ho : s.Owned lb) : s'.Inv := by
  cases h with
  | get idle found =>
    refine hs.move (by rw [idle]; rfl) (by rw [idle]; exact fun _ => id) rfl (fun _ => id) ?_
    rintro k' obj' ⟨⟩
    exact found
  | make idle missing =>
    refine (hs.make missing).move (by rw [idle]; rfl) (by rw [idle]; exact fun _ => id) rfl
      (fun _ => id) ?_
    rintro k' obj' ⟨⟩
    exact Function.update_self ..
  | @take o k obj l has taken =>
    obtain ⟨-, hfree, -, rfl⟩ | ⟨h, -⟩ := AsyncLock.acquire_cases taken
    swap
    · exact absurd h nofun
    have hnew : o ∉ (s.objects obj).waiters.map Prod.fst := hs.notMem_waiters (by rw [has]; exact id)
    refine hs.set (by rw [has]; rfl) rfl ?_ (a := .acquire obj) hfree (locked_update rfl)
      ⟨by rw [has]; rfl, rfl⟩ (fun o' => ?_) (Nat.le_refl _) False.elim
      (pairwise_update (hs.sorted obj) hnew)
    · have := (hs.wellFormed obj).acquire hnew
      rwa [taken] at this
    · split
      case isTrue ho' => exact iff_of_false (ho' ▸ hnew) id
      case isFalse => rfl
  | @wait o k obj l has busy =>
    obtain ⟨h, -⟩ | ⟨-, rfl⟩ := AsyncLock.acquire_cases busy
    · exact absurd h nofun
    have hnew : o ∉ (s.objects obj).waiters.map Prod.fst := hs.notMem_waiters (by rw [has]; exact id)
    refine hs.set (p := .waiting k obj s.next) (by rw [has]; rfl) rfl ?_ (a := .keep) trivial
      (locked_update_same (by rfl)) (by rw [has]; rfl) (fun o' => ?_) (Nat.le_succ _)
      (fun _ => Nat.lt_succ_self _) ?_
    · have := (hs.wellFormed obj).acquire hnew
      rwa [busy] at this
    · rw [List.map_append, List.mem_append, List.map_singleton, List.mem_singleton]
      split
      case isTrue ho' => exact iff_of_true (.inr ho') rfl
      case isFalse ho' => exact or_iff_left ho'
    · -- Its number is greater than those drawn before.
      rw [List.map_append, List.pairwise_append]
      refine ⟨pairwise_update (hs.sorted obj) hnew, List.pairwise_singleton .., ?_⟩
      intro o₁ h₁ o₂ h₂
      obtain rfl := List.mem_singleton.1 h₂
      rw [Function.update_self, Function.update_of_ne (ne_of_mem_of_not_mem h₁ hnew)]
      exact hs.lt_next o₁ obj ((hs.waits obj o₁).1 h₁)
  | @cancel o k obj n waits =>
    refine hs.set (by rw [waits]; rfl) rfl ((hs.wellFormed obj).cancel o) (a := .keep) trivial
      (locked_update_same rfl) (by rw [waits]; rfl) (fun o' => ?_) (Nat.le_refl _) (fun _ => ?_) ?_
    · rw [AsyncLock.map_fst_cancel, hs.waits]
      split
      case isTrue ho' => rw [ho', waits]
      case isFalse => rfl
    · have := hs.lt_next o obj (by rw [waits]; rfl)
      rwa [waits] at this
    · rw [AsyncLock.map_fst_cancel, ← waits, Function.update_eq_self]
      exact hs.sorted obj
  | @resume o k obj n l waits resumed =>
    have hl := (hs.wellFormed obj).resume resumed
    obtain ⟨-, hfree, -, rfl⟩ | ⟨h, -⟩ | ⟨h, -⟩ := AsyncLock.resume_cases (hs.wellFormed obj) resumed
    · exact hs.set (p := .holding k obj) (by rw [waits]; rfl) rfl hl (a := .acquire obj) hfree
        (locked_update rfl) ⟨by rw [waits]; rfl, rfl⟩ (fun _ => AsyncLock.mem_others_iff _)
        (Nat.le_refl _)
        False.elim (pairwise_others (hs.sorted obj))
    · exact absurd h nofun
    · exact absurd h nofun
  | @giveUp o k obj n l waits resumed =>
    have hl := (hs.wellFormed obj).resume resumed
    obtain ⟨h, -⟩ | ⟨-, hlocked, rfl⟩ | ⟨-, hfree, rfl⟩ :=
      AsyncLock.resume_cases (hs.wellFormed obj) resumed
    · exact absurd h nofun
    · exact hs.set (p := .has k obj) (by rw [waits]; rfl) rfl hl (a := .keep) trivial
        (locked_update_same hlocked.symm) (by rw [waits]; rfl) (fun _ => AsyncLock.mem_others_iff _)
        (Nat.le_refl _) False.elim (pairwise_others (hs.sorted obj))
    · refine hs.set (p := .has k obj) (by rw [waits]; rfl) rfl hl (a := .keep) trivial
        (locked_update_same hfree.symm) (by rw [waits]; rfl) ?_ (Nat.le_refl _) False.elim ?_
      · rw [AsyncLock.map_fst_wakeUpFirst]
        exact fun _ => AsyncLock.mem_others_iff _
      · rw [AsyncLock.map_fst_wakeUpFirst]
        exact pairwise_others (hs.sorted obj)
  | @release o k obj l refers released =>
    obtain ⟨-, rfl⟩ := AsyncLock.release_eq_some_iff.1 released
    obtain ⟨k', obj', hold⟩ := ho o rfl
    obtain ⟨rfl, rfl⟩ : k' = k ∧ obj' = obj := by
      rcases refers with h | h
      · exact absurd (h.symm.trans hold) nofun
      · exact LockPoint.holding.inj (hold.symm.trans h)
    have hout : o ∉ (s.objects obj').waiters.map Prod.fst := hs.notMem_waiters (by rw [hold]; exact id)
    refine hs.set (by rw [hold]; rfl) rfl ((hs.wellFormed obj').release released)
      (a := .release obj') trivial (locked_update rfl) ⟨by rw [hold]; rfl, rfl⟩ (fun o' => ?_)
      (Nat.le_refl _) False.elim ?_
    · rw [AsyncLock.map_fst_wakeUpFirst]
      split
      case isTrue ho' => exact iff_of_false (ho' ▸ hout) id
      case isFalse => rfl
    · rw [AsyncLock.map_fst_wakeUpFirst]
      exact pairwise_update (hs.sorted obj') hout
  | drop has =>
    exact hs.move (by rw [has]; rfl) (by rw [has]; exact fun _ => id) rfl (fun _ => id) nofun
  | collect found dead => exact hs.collect found dead

/-- The invariant of the runs where only who holds a lock releases it. -/
theorem inv_of_reachable (h : (keyedLocksLts K O).ReachableUnder Owned s) : s.Inv :=
  h.invariant (fun _ h => h ▸ inv_new) fun _ _ _ hs ho hst => hst.inv hs ho

/-! ### The locks by key -/

/-- The lock of a key is taken, if there is one. -/
def locked (s : KeyedLocks K O) (k : K) : Bool :=
  match s.dict k with
  | some obj => (s.objects obj).locked
  | none => false

omit [DecidableEq K] [DecidableEq O] in
theorem locked_of_found (found : s.dict k = some obj) : s.locked k = (s.objects obj).locked := by
  rw [locked, found]

omit [DecidableEq K] [DecidableEq O] in
/-- The locks are mutexes by key. -/
theorem Inv.guards_key (hs : s.Inv) : Mutex.Guards s.locked fun o => (s.points o).heldKey where
  taken_iff k := by
    constructor
    · intro hk
      cases hd : s.dict k with
      | none => simp [locked, hd] at hk
      | some obj =>
        rw [locked_of_found hd] at hk
        obtain ⟨o, ho⟩ := (hs.guards.taken_iff obj).1 hk
        obtain ⟨k', hp⟩ := LockPoint.held_eq_some_iff.1 ho
        obtain rfl := hs.inj k' k obj (hs.refs o k' obj (by rw [hp]; rfl)) hd
        exact ⟨o, LockPoint.heldKey_eq_some_iff.2 ⟨obj, hp⟩⟩
    · rintro ⟨o, ho⟩
      obtain ⟨obj, hp⟩ := LockPoint.heldKey_eq_some_iff.1 ho
      rw [locked_of_found (hs.refs o k obj (by rw [hp]; rfl))]
      exact (hs.guards.taken_iff obj).2 ⟨o, LockPoint.held_eq_some_iff.2 ⟨k, hp⟩⟩
  unique {k o o'} h h' := by
    obtain ⟨obj, hp⟩ := LockPoint.heldKey_eq_some_iff.1 h
    obtain ⟨obj', hp'⟩ := LockPoint.heldKey_eq_some_iff.1 h'
    -- Both refer to the lock found under the key.
    have hd := hs.refs o k obj (by rw [hp]; rfl)
    have hd' := hs.refs o' k obj' (by rw [hp']; rfl)
    obtain rfl : obj = obj' := Option.some.inj (hd.symm.trans hd')
    exact hs.guards.unique (LockPoint.held_eq_some_iff.2 ⟨k, hp⟩)
      (LockPoint.held_eq_some_iff.2 ⟨k, hp'⟩)

/-- The lock a task refers to changes, and with it the lock of the key it got it for. -/
theorem Inv.locked_set (hs : s.Inv) (href : (s.points o).ref = some (k, obj)) {b : Bool}
    (hl : l.locked = b) : (s.set o obj p l).locked = Function.update s.locked k b := by
  have hfound := hs.refs o k obj href
  funext k'
  by_cases hk : k' = k
  · subst hk
    rw [Function.update_self, locked_of_found (s := s.set o obj p l) hfound, ← hl]
    exact congrArg AsyncLock.locked (Function.update_self ..)
  · rw [Function.update_of_ne hk]
    cases hd : s.dict k' with
    | none => simp only [locked, KeyedLocks.set, hd]
    | some obj' =>
      have hobj : obj' ≠ obj := by
        rintro rfl
        exact hk (hs.inj k' k obj' hd hfound)
      rw [locked_of_found hd, locked_of_found (s := s.set o obj p l) hd]
      exact congrArg AsyncLock.locked (Function.update_of_ne hobj _ _)

/-- The task a step is of. -/
def Label.actor : Label K O → Option O
  | .get o _ | .acquire o | .cancel o | .resume o | .release o | .drop o => some o
  | .collect _ => none

/-- A step is an action on the locks by key, of the task it is of. -/
structure Acts (s s' : KeyedLocks K O) (lb : Label K O) (a : Mutex.Action K) : Prop where
  enabled : a.Enabled s.locked
  apply : s'.locked = a.apply s.locked
  moves : ∀ o ∈ lb.actor, a.Moves (s.points o).heldKey (s'.points o).heldKey
  frame : ∀ o, lb.actor ≠ some o → s'.points o = s.points o
  keep : lb.actor = none → a = .keep

/-- A task does something to the lock it refers to, as an action on the key. -/
theorem Inv.acts_set (hs : s.Inv) (href : (s.points o).ref = some (k, obj)) {lb : Label K O}
    (hlb : lb.actor = some o) {b : Bool} (hl : l.locked = b) {a : Mutex.Action K}
    (ha : a.Enabled s.locked) (happly : Function.update s.locked k b = a.apply s.locked)
    (hmoves : a.Moves (s.points o).heldKey p.heldKey) {n : ℕ} {g : ℕ → ℕ} :
    Acts s { s.set o obj p l with next := n, grants := g } lb a where
  enabled := ha
  apply := (hs.locked_set (p := p) href hl).trans happly
  moves o' ho' := by
    obtain rfl : o' = o := Option.some.inj ((Option.mem_def.1 ho').symm.trans hlb)
    have hp : (s.set o' obj p l).points o' = p := Function.update_self ..
    rw [hp]
    exact hmoves
  frame o' ho' := Function.update_of_ne (by rintro rfl; exact ho' hlb) _ _
  keep h := absurd (hlb.symm.trans h) nofun

/-- A task does nothing to the locks. -/
theorem acts_keep {lb : Label K O} (hlb : lb.actor = some o) (hlocked : s'.locked = s.locked)
    (hpoints : s'.points = Function.update s.points o p)
    (hkey : (s.points o).heldKey = p.heldKey) : Acts s s' lb .keep where
  enabled := trivial
  apply := hlocked
  moves o' ho' := by
    obtain rfl : o' = o := Option.some.inj ((Option.mem_def.1 ho').symm.trans hlb)
    rw [hpoints, Function.update_self]
    exact hkey
  frame o' ho' := by
    rw [hpoints]
    exact Function.update_of_ne (by rintro rfl; exact ho' hlb) _ _
  keep _ := rfl

theorem Step.action {lb : Label K O} (h : Step s lb s') (hs : s.Inv) (ho : s.Owned lb) :
    ∃ a, Acts s s' lb a := by
  cases h with
  | @get o k obj idle found => exact ⟨.keep, acts_keep rfl rfl rfl (by rw [idle]; rfl)⟩
  | @make o k idle missing =>
    refine ⟨.keep, acts_keep rfl ?_ rfl (by rw [idle]; rfl)⟩
    -- A new lock is free, and so was none.
    funext k'
    by_cases hk : k' = k
    · subst hk
      simp [locked, missing]
    · cases hd : s.dict k' with
      | none => simp [locked, Function.update_of_ne hk, hd]
      | some obj' =>
        have hobj : obj' ≠ s.made := Nat.ne_of_lt (hs.lt_made k' obj' hd)
        simp [locked, Function.update_of_ne hk, hd, Function.update_of_ne hobj]
  | @take o k obj l has taken =>
    obtain ⟨-, hfree, -, rfl⟩ | ⟨h, -⟩ := AsyncLock.acquire_cases taken
    · have href : (s.points o).ref = some (k, obj) := by rw [has]; rfl
      refine ⟨.acquire k, hs.acts_set (p := .holding k obj) (a := .acquire k) href rfl rfl ?_ rfl
        ⟨by rw [has]; rfl, rfl⟩⟩
      exact (locked_of_found (hs.refs o k obj href)).trans hfree
    · exact absurd h nofun
  | @wait o k obj l has busy =>
    obtain ⟨h, -⟩ | ⟨-, rfl⟩ := AsyncLock.acquire_cases busy
    · exact absurd h nofun
    · have href : (s.points o).ref = some (k, obj) := by rw [has]; rfl
      refine ⟨.keep, hs.acts_set (p := .waiting k obj s.next) (a := .keep) href rfl rfl trivial ?_
        (by rw [has]; rfl)⟩
      exact (congrArg _ (locked_of_found (hs.refs o k obj href)).symm).trans
        (Function.update_eq_self ..)
  | @cancel o k obj n waits =>
    have href : (s.points o).ref = some (k, obj) := by rw [waits]; rfl
    refine ⟨.keep, hs.acts_set (p := .waiting k obj n) (a := .keep) href rfl rfl trivial ?_
      (by rw [waits]; rfl)⟩
    exact (congrArg _ (locked_of_found (hs.refs o k obj href)).symm).trans
      (Function.update_eq_self ..)
  | @resume o k obj n l waits resumed =>
    have href : (s.points o).ref = some (k, obj) := by rw [waits]; rfl
    obtain ⟨-, hfree, -, rfl⟩ | ⟨h, -⟩ | ⟨h, -⟩ := AsyncLock.resume_cases (hs.wellFormed obj) resumed
    · refine ⟨.acquire k, hs.acts_set (p := .holding k obj) (a := .acquire k) href rfl rfl ?_ rfl
        ⟨by rw [waits]; rfl, rfl⟩⟩
      exact (locked_of_found (hs.refs o k obj href)).trans hfree
    · exact absurd h nofun
    · exact absurd h nofun
  | @giveUp o k obj n l waits resumed =>
    have href : (s.points o).ref = some (k, obj) := by rw [waits]; rfl
    refine ⟨.keep, hs.acts_set (p := .has k obj) (b := s.locked k) (a := .keep) href rfl ?_ trivial
      (Function.update_eq_self ..) (by rw [waits]; rfl)⟩
    rw [locked_of_found (hs.refs o k obj href)]
    obtain ⟨h, -⟩ | ⟨-, hlocked, rfl⟩ | ⟨-, hfree, rfl⟩ :=
      AsyncLock.resume_cases (hs.wellFormed obj) resumed
    · exact absurd h nofun
    · exact hlocked.symm
    · exact hfree.symm
  | @release o k obj l refers released =>
    obtain ⟨-, rfl⟩ := AsyncLock.release_eq_some_iff.1 released
    obtain ⟨k', obj', hold⟩ := ho o rfl
    obtain ⟨rfl, rfl⟩ : k' = k ∧ obj' = obj := by
      rcases refers with h | h
      · exact absurd (h.symm.trans hold) nofun
      · exact LockPoint.holding.inj (hold.symm.trans h)
    exact ⟨.release k', hs.acts_set (p := .has k' obj') (a := .release k') (by rw [hold]; rfl) rfl
      rfl trivial rfl
      ⟨by rw [hold]; rfl, rfl⟩⟩
  | @drop o k obj has => exact ⟨.keep, acts_keep rfl rfl rfl (by rw [has]; rfl)⟩
  | @collect k obj found dead =>
    refine ⟨.keep, trivial, ?_, nofun, fun _ _ => rfl, fun _ => rfl⟩
    -- Nobody held the lock that is collected.
    funext k'
    by_cases hk : k' = k
    · subst hk
      have hfree : (s.objects obj).locked = false := by
        rw [Bool.eq_false_iff]
        intro h
        obtain ⟨o, ho⟩ := (hs.guards.taken_iff obj).1 h
        obtain ⟨k'', hk''⟩ := LockPoint.ref_of_held ho
        exact dead o k'' hk''
      rw [Mutex.Action.apply, locked_of_found found, hfree]
      simp [locked]
    · simp [locked, Function.update_of_ne hk, Mutex.Action.apply]

/-- A task refers to the lock it has got. -/
theorem Step.ref_cases {lb : Label K O} (h : Step s lb s')
    (href : (s'.points o).ref = some (k, obj)) :
    (s.points o).ref = some (k, obj) ∨ lb = .get o k := by
  have hcase : ∀ {o' : O} {p : LockPoint K}, (Function.update s.points o' p o).ref = some (k, obj) →
      (o' = o → p.ref = some (k, obj) → (s.points o).ref = some (k, obj) ∨ lb = .get o k) →
      (s.points o).ref = some (k, obj) ∨ lb = .get o k := by
    intro o' p href hp
    rw [Function.update_apply] at href
    split at href
    case isTrue ho => exact hp ho.symm href
    case isFalse => exact .inl href
  cases h with
  | get | make =>
    refine hcase href ?_
    rintro rfl ⟨⟩
    exact .inr rfl
  | take has | wait has | cancel has | resume has | giveUp has =>
    refine hcase href ?_
    rintro rfl hp
    rw [has]
    exact .inl hp
  | release refers =>
    refine hcase href ?_
    rintro rfl hp
    rcases refers with h | h <;> rw [h] <;> exact .inl hp
  | drop =>
    refine hcase href ?_
    rintro - ⟨⟩
  | collect => exact .inl href

end KeyedLocks
