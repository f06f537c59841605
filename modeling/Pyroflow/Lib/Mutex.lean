import Mathlib.Logic.Function.Basic

/-!
# Locks that do not know their owner

A family of binary locks, one for each key, whose acquisition waits for the lock
to be free and whose release frees it whoever calls. Such a lock excludes
nothing by itself: it does so only when every release is made by the one that
holds the lock. `Mutex.Guards locked holds` says so of a state of the locks and
of what each owner believes to hold: a lock is taken if and only if some owner
holds it, and no two owners hold the same one.

It is kept by an owner taking a free lock (`Guards.acquire`) and by an owner
giving back a lock it holds (`Guards.release`), and by nothing else. For a system
whose steps each perform one `Action` on the locks, `Guards.act` says it at once.
-/

namespace Mutex

variable {K O : Type*} {locked : K → Bool} {holds : O → Option K} {k : K} {o o' : O}

/-- The locks that are taken are those the owners hold, each by one owner. -/
structure Guards (locked : K → Bool) (holds : O → Option K) : Prop where
  /-- A lock is taken if and only if some owner holds it. -/
  taken_iff : ∀ k, locked k = true ↔ ∃ o, holds o = some k
  /-- No two owners hold the same lock. -/
  unique : ∀ {k o o'}, holds o = some k → holds o' = some k → o = o'

/-- Free locks guard owners that hold nothing. -/
theorem Guards.free (hl : ∀ k, locked k = false) (hh : ∀ o, holds o = none) :
    Guards locked holds where
  taken_iff k := by simp [hl, hh]
  unique {k o o'} h := by simp [hh] at h

variable [DecidableEq O]

/-- A change of an owner that is not about locks. -/
theorem Guards.keep (h : Guards locked holds) {v : Option K} (hv : holds o = v) :
    Guards locked (Function.update holds o v) := by
  rw [← hv, Function.update_eq_self]
  exact h

variable [DecidableEq K]

/-- An owner that holds nothing takes a free lock. -/
theorem Guards.acquire (h : Guards locked holds) (hk : locked k = false) (ho : holds o = none) :
    Guards (Function.update locked k true) (Function.update holds o (some k)) := by
  have hfree : ∀ o', holds o' ≠ some k := fun o' ho' => by
    have := (h.taken_iff k).2 ⟨o', ho'⟩
    simp [hk] at this
  constructor
  · intro k'
    by_cases hk' : k' = k
    · subst hk'
      simpa using ⟨o, by simp⟩
    · rw [Function.update_of_ne hk', h.taken_iff]
      refine exists_congr fun o' => ?_
      by_cases ho' : o' = o
      · subst ho'
        simp [ho, Ne.symm hk']
      · rw [Function.update_of_ne ho']
  · intro k' a b ha hb
    by_cases hao : a = o <;> by_cases hbo : b = o
    · rw [hao, hbo]
    · subst hao
      simp only [Function.update_self, Option.some.injEq, Function.update_of_ne hbo] at ha hb
      exact absurd (ha ▸ hb) (hfree b)
    · subst hbo
      simp only [Function.update_self, Option.some.injEq, Function.update_of_ne hao] at ha hb
      exact absurd (hb ▸ ha) (hfree a)
    · rw [Function.update_of_ne hao] at ha
      rw [Function.update_of_ne hbo] at hb
      exact h.unique ha hb

/-- An owner gives back a lock it holds. -/
theorem Guards.release (h : Guards locked holds) (ho : holds o = some k) :
    Guards (Function.update locked k false) (Function.update holds o none) := by
  constructor
  · intro k'
    by_cases hk' : k' = k
    · subst hk'
      -- Nobody else held it.
      simp only [Function.update_self, Bool.false_eq_true, false_iff, not_exists]
      intro o' ho'
      by_cases hoo : o' = o
      · simp [hoo] at ho'
      · exact hoo (h.unique (by rwa [Function.update_of_ne hoo] at ho') ho)
    · rw [Function.update_of_ne hk', h.taken_iff]
      refine exists_congr fun o' => ?_
      by_cases hoo : o' = o
      · subst hoo
        simp [ho, Ne.symm hk']
      · rw [Function.update_of_ne hoo]
  · intro k' a b ha hb
    have hne : ∀ {o'}, Function.update holds o none o' = some k' → holds o' = some k' := by
      intro o' ho'
      by_cases hoo : o' = o
      · simp [hoo] at ho'
      · rwa [Function.update_of_ne hoo] at ho'
    exact h.unique (hne ha) (hne hb)

/-! ### Actions -/

/-- What a step of an owner does to the locks. -/
inductive Action (K : Type*)
  | keep
  | acquire (k : K)
  | release (k : K)

namespace Action

/-- The acquisition of a lock waits for it to be free. -/
def Enabled (locked : K → Bool) : Action K → Prop
  | .acquire k => locked k = false
  | .keep | .release _ => True

/-- The locks that are taken after the action. -/
def apply (locked : K → Bool) : Action K → K → Bool
  | .keep => locked
  | .acquire k => Function.update locked k true
  | .release k => Function.update locked k false

/-- The action is that of an owner holding `v`, which then holds `v'`. -/
def Moves (v v' : Option K) : Action K → Prop
  | .keep => v = v'
  | .acquire k => v = none ∧ v' = some k
  | .release k => v = some k ∧ v' = none

omit [DecidableEq K] in
/-- What an owner holds before and after tells the action. -/
theorem Moves.unique {a a' : Action K} {v v' : Option K} (h : a.Moves v v') (h' : a'.Moves v v') :
    a = a' := by
  cases a <;> cases a' <;> simp only [Moves] at h h' <;> grind

omit [DecidableEq K] in
/-- An owner that holds a lock need not wait, and neither does one when all are free. -/
theorem Moves.enabled {a : Action K} {v v' : Option K} (h : a.Moves v v')
    (hv : v ≠ none ∨ ∀ k, locked k = false) : a.Enabled locked := by
  cases a with
  | acquire k => exact hv.elim (fun hv => absurd h.1 hv) fun hfree => hfree k
  | keep | release => trivial

/-- Only a release frees a lock. -/
theorem eq_release {a : Action K} (hk : locked k = true) (hk' : a.apply locked k = false) :
    a = .release k := by
  cases a with
  | keep => exact absurd (hk.symm.trans hk') nofun
  | acquire k' =>
    by_cases h : k = k'
    · simp [apply, h] at hk'
    · simp [apply, Function.update_of_ne h, hk] at hk'
  | release k' =>
    by_cases h : k = k'
    · rw [h]
    · simp [apply, Function.update_of_ne h, hk] at hk'

end Action

/-- Owners that act on the locks they take, and on no others, are guarded. -/
theorem Guards.act (h : Guards locked holds) {a : Action K} {v : Option K} (ha : a.Enabled locked)
    (hm : a.Moves (holds o) v) : Guards (a.apply locked) (Function.update holds o v) := by
  cases a with
  | keep => exact h.keep hm
  | acquire k =>
    obtain ⟨ho, rfl⟩ := hm
    exact h.acquire ha ho
  | release k =>
    obtain ⟨ho, rfl⟩ := hm
    exact h.release ho

end Mutex
