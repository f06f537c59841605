import Mathlib.Data.Set.Insert
import Mathlib.Logic.Function.Basic
import Mathlib.Order.Defs.PartialOrder

/-!
# Registries of generation tokens

A registry maps a key to the token of its current registration, if it has one.
Tokens are *generations*: each is issued once, to one key. A `TokenRegistry`
carries that in its type, with the set of the tokens issued so far: a token it
holds was issued, and is held under one key only.

It changes by issuing a fresh token to a key (`issue`), by revoking whatever a
key holds (`revoke`) and by withdrawing a given token from a key, which does
nothing when the key holds another one (`withdraw`: compare and delete).

Registries are preordered by what may have happened since: in a later registry
more tokens are issued, and no token issued before stands under a key it did not
stand under (`TokenRegistry.instPreorder`). A *retired* token, issued and held
under no key, stays so for good (`Retired.mono`): whoever still believes in it
can be told apart from the current holder of the key, whatever the holder.
-/

/-- A registry of the current tokens `T` of the keys `K`. -/
structure TokenRegistry (K T : Type*) where
  /-- The token of the current registration of a key. -/
  current : K → Option T
  /-- The tokens issued so far. -/
  issued : Set T
  /-- The tokens held were issued. -/
  mem_issued : ∀ {k t}, current k = some t → t ∈ issued
  /-- A token is held under one key only. -/
  inj : ∀ {k k' t}, current k = some t → current k' = some t → k = k'

namespace TokenRegistry

variable {K T : Type*}

/-- A registry is its current tokens and the tokens issued so far. -/
@[ext]
theorem ext {r r' : TokenRegistry K T} (hc : r.current = r'.current) (hi : r.issued = r'.issued) :
    r = r' := by
  cases r
  cases r'
  simp_all

/-- The registry where nothing was ever issued. -/
def empty : TokenRegistry K T where
  current _ := none
  issued := ∅
  mem_issued h := by simp at h
  inj h := by simp at h

variable [DecidableEq K] (r : TokenRegistry K T) {k k' : K} {t t' : T}

/-- Issue the fresh token `t` to the key `k`. -/
def issue (k : K) (t : T) (ht : t ∉ r.issued) : TokenRegistry K T where
  current := Function.update r.current k (some t)
  issued := insert t r.issued
  mem_issued {k' t'} h := by
    by_cases hk : k' = k
    · subst hk
      simp only [Function.update_self, Option.some.injEq] at h
      exact h ▸ Set.mem_insert _ _
    · rw [Function.update_of_ne hk] at h
      exact Set.mem_insert_of_mem _ (r.mem_issued h)
  inj {k₁ k₂ t'} h₁ h₂ := by
    -- The fresh token stands under no other key.
    have hfresh : ∀ k', r.current k' ≠ some t := fun k' hk' => ht (r.mem_issued hk')
    by_cases hk₁ : k₁ = k <;> by_cases hk₂ : k₂ = k
    · rw [hk₁, hk₂]
    · subst hk₁
      simp only [Function.update_self, Option.some.injEq, Function.update_of_ne hk₂] at h₁ h₂
      exact absurd (h₁ ▸ h₂) (hfresh k₂)
    · subst hk₂
      simp only [Function.update_self, Option.some.injEq, Function.update_of_ne hk₁] at h₁ h₂
      exact absurd (h₂ ▸ h₁) (hfresh k₁)
    · rw [Function.update_of_ne hk₁] at h₁
      rw [Function.update_of_ne hk₂] at h₂
      exact r.inj h₁ h₂

/-- Revoke the registration of the key `k`, whatever it is. -/
def revoke (k : K) : TokenRegistry K T where
  current := Function.update r.current k none
  issued := r.issued
  mem_issued {k' t'} h := by
    by_cases hk : k' = k
    · simp [hk] at h
    · rw [Function.update_of_ne hk] at h
      exact r.mem_issued h
  inj {k₁ k₂ t'} h₁ h₂ := by
    by_cases hk₁ : k₁ = k
    · simp [hk₁] at h₁
    by_cases hk₂ : k₂ = k
    · simp [hk₂] at h₂
    rw [Function.update_of_ne hk₁] at h₁
    rw [Function.update_of_ne hk₂] at h₂
    exact r.inj h₁ h₂

/-- Withdraw the token `t` from the key `k`: compare and delete. -/
def withdraw [DecidableEq T] (k : K) (t : T) : TokenRegistry K T :=
  if r.current k = some t then r.revoke k else r

variable {r}

@[simp] theorem issue_self (ht : t ∉ r.issued) : (r.issue k t ht).current k = some t :=
  Function.update_self ..

@[simp] theorem issue_of_ne (ht : t ∉ r.issued) (hk : k' ≠ k) :
    (r.issue k t ht).current k' = r.current k' :=
  Function.update_of_ne hk ..

@[simp] theorem revoke_self : (r.revoke k).current k = none := Function.update_self ..

@[simp] theorem revoke_of_ne (hk : k' ≠ k) : (r.revoke k).current k' = r.current k' :=
  Function.update_of_ne hk ..

/-- A registration that is there after a revocation is another one, and was there. -/
theorem of_revoke (h : (r.revoke k).current k' = some t) : k' ≠ k ∧ r.current k' = some t := by
  by_cases hk : k' = k
  · simp [hk] at h
  · exact ⟨hk, revoke_of_ne hk ▸ h⟩

variable [DecidableEq T]

/-- After a withdrawal, the key does not hold the token. -/
theorem withdraw_self_ne : (r.withdraw k t).current k ≠ some t := by
  rw [withdraw]
  split
  · simp
  · assumption

@[simp] theorem withdraw_of_ne (hk : k' ≠ k) : (r.withdraw k t).current k' = r.current k' := by
  rw [withdraw]
  split
  · exact revoke_of_ne hk
  · rfl

@[simp] theorem issued_withdraw : (r.withdraw k t).issued = r.issued := by
  rw [withdraw]
  split <;> rfl

/-- A registration that is there after a withdrawal was there. -/
theorem of_withdraw (h : (r.withdraw k t).current k' = some t') : r.current k' = some t' := by
  rw [withdraw] at h
  split at h
  · exact (of_revoke h).2
  · exact h

/-- A withdrawal leaves the other tokens where they stand. -/
theorem withdraw_of_ne_token (ht : t' ≠ t) :
    (r.withdraw k t).current k' = some t' ↔ r.current k' = some t' := by
  rw [withdraw]
  split
  · rename_i h
    by_cases hk : k' = k
    · subst hk
      simp [h, Ne.symm ht]
    · rw [revoke_of_ne hk]
  · rfl

omit [DecidableEq K] [DecidableEq T]

/-! ### The course of a registry -/

/-- Registries are preordered by what may have happened since: more tokens are
    issued, and no token issued before stands where it did not. -/
instance instPreorder : Preorder (TokenRegistry K T) where
  le r r' := r.issued ⊆ r'.issued ∧
    ∀ k, ∀ t ∈ r.issued, r'.current k = some t → r.current k = some t
  le_refl _ := ⟨subset_rfl, fun _ _ _ h => h⟩
  le_trans _ _ _ h h' := ⟨h.1.trans h'.1, fun k t ht hk => h.2 k t ht (h'.2 k t (h.1 ht) hk)⟩

theorem le_issue [DecidableEq K] (ht : t ∉ r.issued) : r ≤ r.issue k t ht := by
  refine ⟨Set.subset_insert _ _, fun k' t' ht' h => ?_⟩
  by_cases hk : k' = k
  · subst hk
    rw [issue_self, Option.some.injEq] at h
    exact absurd (h ▸ ht') ht
  · rwa [issue_of_ne _ hk] at h

theorem le_revoke [DecidableEq K] : r ≤ r.revoke k := by
  refine ⟨subset_rfl, fun k' t' _ h => ?_⟩
  by_cases hk : k' = k
  · simp [hk] at h
  · rwa [revoke_of_ne hk] at h

theorem le_withdraw [DecidableEq K] [DecidableEq T] : r ≤ r.withdraw k t := by
  rw [withdraw]
  split
  · exact le_revoke
  · exact le_rfl

variable (r) in
/-- A retired token: it was issued, and stands under no key. -/
def Retired (t : T) : Prop := t ∈ r.issued ∧ ∀ k, r.current k ≠ some t

/-- A retired token stays retired. -/
theorem Retired.mono {r' : TokenRegistry K T} (h : r.Retired t) (hr : r ≤ r') : r'.Retired t :=
  ⟨hr.1 h.1, fun k hk => h.2 k (hr.2 k t h.1 hk)⟩

/-- A token that left its key is retired: it stood under that key only. -/
theorem retired_of_ne (hk : r.current k = some t) {r' : TokenRegistry K T} (hr : r ≤ r')
    (hk' : r'.current k ≠ some t) : r'.Retired t := by
  refine ⟨hr.1 (r.mem_issued hk), fun k' h => ?_⟩
  have := r.inj hk (hr.2 k' t (r.mem_issued hk) h)
  exact hk' (this ▸ h)

end TokenRegistry
