import Mathlib.Data.Nat.Notation
import Mathlib.Logic.Function.Basic

/-!
# Tables by address

A table of values by the address of the object they belong to, which does not keep the object
alive (`WeakTable`). Addresses are used again: an object may be made where another one has died.
When a value is stored for an object, a finalizer is set up, which removes what is stored under
the address when the object dies.

So the value under an address belongs to the object that lives there now, whatever lived there
before (`Sound.owned`). What it is to belong to an object is a relation, to be given.
-/

/-- The objects that live, by their address, numbered in the order they are made; the values
    stored under addresses, and the objects with a finalizer. -/
structure WeakTable (A V : Type*) where
  objects : A → Option ℕ := fun _ => none
  made : ℕ := 0
  values : A → Option V := fun _ => none
  finalizers : ℕ → Bool := fun _ => false

namespace WeakTable

variable {A V : Type*} [DecidableEq A]

section Operations

variable (t : WeakTable A V) (a : A) (v : V)

/-- An object is made at the address. -/
def make : WeakTable A V :=
  { t with objects := Function.update t.objects a (some t.made), made := t.made + 1 }

/-- A value is stored for the object at the address. -/
def store (o : ℕ) : WeakTable A V :=
  { t with
    values := Function.update t.values a (some v)
    finalizers := Function.update t.finalizers o true }

/-- The object at the address dies. -/
def die (o : ℕ) : WeakTable A V :=
  { t with
    objects := Function.update t.objects a none
    values := if t.finalizers o then Function.update t.values a none else t.values }

/-- The values are removed; the finalizers are not. -/
def clear : WeakTable A V := { t with values := fun _ => none }

@[simp] theorem make_objects :
    (t.make a).objects = Function.update t.objects a (some t.made) := rfl

@[simp] theorem store_values (o : ℕ) :
    (t.store a v o).values = Function.update t.values a (some v) := rfl

@[simp] theorem store_finalizers (o : ℕ) :
    (t.store a v o).finalizers = Function.update t.finalizers o true := rfl

@[simp] theorem die_objects (o : ℕ) :
    (t.die a o).objects = Function.update t.objects a none := rfl

theorem die_values (o : ℕ) : (t.die a o).values =
    if t.finalizers o then Function.update t.values a none else t.values := rfl

theorem die_values_of_ne {o : ℕ} {a' : A} (h : a' ≠ a) : (t.die a o).values a' = t.values a' := by
  rw [die_values]
  split
  · exact Function.update_of_ne h ..
  · rfl

end Operations

/-- The objects live at one address each, and the value under an address belongs to the object
    there, which has a finalizer. -/
structure Sound (t : WeakTable A V) (Of : ℕ → V → Prop) : Prop where
  lt_made : ∀ a o, t.objects a = some o → o < t.made
  inj : ∀ a a' o, t.objects a = some o → t.objects a' = some o → a = a'
  owned : ∀ a v, t.values a = some v → ∃ o, t.objects a = some o ∧ t.finalizers o = true ∧ Of o v

namespace Sound

variable {t : WeakTable A V} {Of Of' : ℕ → V → Prop} {a a' : A} {o o' : ℕ} {v : V}

omit [DecidableEq A] in
theorem new : ({} : WeakTable A V).Sound Of where
  lt_made := nofun
  inj := nofun
  owned := nofun

omit [DecidableEq A] in
theorem mono (h : t.Sound Of) (hOf : ∀ o v, Of o v → Of' o v) : t.Sound Of' where
  lt_made := h.lt_made
  inj := h.inj
  owned a v hv := by
    obtain ⟨o, ho, hfinal, hof⟩ := h.owned a v hv
    exact ⟨o, ho, hfinal, hOf o v hof⟩

omit [DecidableEq A] in
/-- The value under the address of an object belongs to it. -/
theorem of_values (h : t.Sound Of) (ho : t.objects a = some o) (hv : t.values a = some v) :
    Of o v := by
  obtain ⟨o', ho', -, hof⟩ := h.owned a v hv
  exact Option.some.inj (ho'.symm.trans ho) ▸ hof

omit [DecidableEq A] in
/-- Different objects live at different addresses. -/
theorem ne (h : t.Sound Of) (ho : t.objects a = some o) (ho' : t.objects a' = some o')
    (hne : a ≠ a') : o ≠ o' := by
  rintro rfl
  exact hne (h.inj a a' o ho ho')

theorem make (h : t.Sound Of) (hfree : t.objects a = none) : (t.make a).Sound Of := by
  -- An object that lives has been made before, elsewhere.
  have hcases : ∀ a' o, (t.make a).objects a' = some o →
      a' = a ∧ o = t.made ∨ a' ≠ a ∧ t.objects a' = some o := by
    intro a' o ho
    by_cases ha : a' = a
    · rw [ha, make_objects, Function.update_self] at ho
      exact .inl ⟨ha, (Option.some.inj ho).symm⟩
    · exact .inr ⟨ha, by rwa [make_objects, Function.update_of_ne ha] at ho⟩
  refine ⟨fun a' o ho => ?_, fun a₁ a₂ o h₁ h₂ => ?_, fun a' v hv => ?_⟩
  · rcases hcases a' o ho with ⟨-, rfl⟩ | ⟨-, ho⟩
    · exact Nat.lt_succ_self _
    · exact Nat.lt_succ_of_lt (h.lt_made a' o ho)
  · rcases hcases a₁ o h₁ with ⟨rfl, rfl⟩ | ⟨-, ho₁⟩ <;>
      rcases hcases a₂ _ h₂ with ⟨rfl, h'⟩ | ⟨-, ho₂⟩
    · rfl
    · exact absurd (h.lt_made _ _ ho₂) (Nat.lt_irrefl _)
    · exact absurd h' (Nat.ne_of_lt (h.lt_made _ _ ho₁))
    · exact h.inj a₁ a₂ o ho₁ ho₂
  · obtain ⟨o, ho, hfinal, hof⟩ := h.owned a' v hv
    have ha : a' ≠ a := by
      rintro rfl
      rw [hfree] at ho
      cases ho
    exact ⟨o, by rwa [make_objects, Function.update_of_ne ha], hfinal, hof⟩

theorem store (h : t.Sound Of) (ho : t.objects a = some o) (hof : Of o v) :
    (t.store a v o).Sound Of where
  lt_made := h.lt_made
  inj := h.inj
  owned a' v' hv := by
    by_cases ha : a' = a
    · rw [ha, store_values, Function.update_self] at hv
      obtain rfl := Option.some.inj hv
      exact ⟨o, ha ▸ ho, Function.update_self .., hof⟩
    · rw [store_values, Function.update_of_ne ha] at hv
      obtain ⟨o', ho', hfinal, hof'⟩ := h.owned a' v' hv
      refine ⟨o', ho', ?_, hof'⟩
      rw [store_finalizers, Function.update_of_ne (h.ne ho' ho ha)]
      exact hfinal

/-- The value of an object dies with it. -/
theorem die (h : t.Sound Of) (ho : t.objects a = some o) : (t.die a o).Sound Of := by
  have hof {a' : A} {o' : ℕ} (h' : (t.die a o).objects a' = some o') :
      a' ≠ a ∧ t.objects a' = some o' := by
    by_cases ha : a' = a
    · rw [ha, die_objects, Function.update_self] at h'
      cases h'
    · exact ⟨ha, by rwa [die_objects, Function.update_of_ne ha] at h'⟩
  refine ⟨fun a' o' h' => h.lt_made a' o' (hof h').2,
    fun a₁ a₂ o' h₁ h₂ => h.inj a₁ a₂ o' (hof h₁).2 (hof h₂).2, fun a' v hv => ?_⟩
  have ha : a' ≠ a := by
    rintro rfl
    rw [die_values] at hv
    split at hv
    case isTrue hfinal =>
      rw [Function.update_self] at hv
      cases hv
    case isFalse hfinal =>
      obtain ⟨o', ho', hfinal', -⟩ := h.owned a' v hv
      exact hfinal (Option.some.inj (ho'.symm.trans ho) ▸ hfinal')
  rw [die_values_of_ne t a ha] at hv
  obtain ⟨o', ho', hfinal, hof'⟩ := h.owned a' v hv
  exact ⟨o', by rwa [die_objects, Function.update_of_ne ha], hfinal, hof'⟩

omit [DecidableEq A] in
theorem clear (h : t.Sound Of) : t.clear.Sound Of where
  lt_made := h.lt_made
  inj := h.inj
  owned _ _ hv := by cases hv

end Sound

end WeakTable
