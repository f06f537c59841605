import Mathlib.Data.Finset.Card
import Pyroflow.Lib.KeyedLocks

/-!
# Fairness of locks by key

A task that waits for a lock of `KeyedLocks` has drawn a number, and the lock goes to those
with lesser numbers first (`KeyedLocks.ahead`).

* As long as it waits, and is not cancelled, the lock is taken by those that were ahead
  (`KeyedLocks.not_overtaken`), and as often as there were, at most
  (`KeyedLocks.grants_add_ahead_le`).
* While the lock is free, one of those that wait for it resumes (`KeyedLocks.Inv.exists_resume`).
  No call is lost, whoever is cancelled.
-/

namespace KeyedLocks

variable {K O : Type*}

/-- How many tasks wait for a lock with a number less than `n`. -/
def ahead (s : KeyedLocks K O) (obj n : ℕ) : ℕ :=
  ((s.objects obj).waiters.map Prod.fst).countP fun o => (s.points o).number < n

variable [DecidableEq K] [DecidableEq O] {s s' : KeyedLocks K O} {o o' : O} {k k' : K}
  {obj obj' n : ℕ} {p : LockPoint K} {l l' : AsyncLock O} {lb : Label K O}

/-! ### One step -/

omit [DecidableEq K] in
theorem countP_update {os : List O} {points : O → LockPoint K} (ho : o ∉ os) :
    (os.countP fun o' => (Function.update points o p o').number < n) =
      os.countP fun o' => (points o').number < n :=
  List.countP_congr fun o' ho' => by
    rw [Function.update_of_ne (ne_of_mem_of_not_mem ho' ho)]

/-- Numbers only grow. -/
theorem Step.next_le (h : Step s lb s') : s.next ≤ s'.next := by
  cases h with
  | wait => exact Nat.le_succ _
  | _ => exact Nat.le_refl _

/-- A task that starts to wait draws the next number. -/
theorem Step.waiting (h : Step s lb s') (hp : s'.points o = .waiting k obj n) :
    s.points o = .waiting k obj n ∨ n = s.next := by
  have hcase : ∀ {o' p}, Function.update s.points o' p o = .waiting k obj n →
      s.points o = .waiting k obj n ∨ p = .waiting k obj n := by
    intro o' p hp
    rw [Function.update_apply] at hp
    split at hp
    · exact .inr hp
    · exact .inl hp
  cases h with
  | collect => exact .inl hp
  | wait => exact (hcase hp).imp_right fun h => (LockPoint.waiting.inj h).2.2.symm
  | @cancel o' k' obj' n' waits =>
    have hp : Function.update s.points o' (.waiting k' obj' n') o = .waiting k obj n := hp
    rw [← waits, Function.update_eq_self] at hp
    exact .inl hp
  | _ => exact .inl ((hcase hp).resolve_right nofun)

omit [DecidableEq O] in
theorem mem_cancelled_wakeUpFirst {ws : List (O × LockFuture)} (h : (o, .cancelled) ∈ ws) :
    (o, .cancelled) ∈ AsyncLock.wakeUpFirst ws := by
  rcases AsyncLock.wakeUpFirst_cases ws with ⟨heq, -⟩ | ⟨o', ws', rfl, heq⟩
  · rwa [heq]
  · rw [heq]
    exact List.mem_cons_of_mem _ ((List.mem_cons.1 h).resolve_left nofun)

/-- A cancelled task stays so as it waits, and one of those ahead of another is gone each time
    the lock is taken. -/
structure Passes (s s' : KeyedLocks K O) (o : O) (obj n : ℕ) : Prop where
  cancelled : (o, .cancelled) ∈ (s.objects obj).waiters → (o, .cancelled) ∈ (s'.objects obj).waiters
  ahead : (o, .cancelled) ∉ (s'.objects obj).waiters →
    s'.grants obj + s'.ahead obj n ≤ s.grants obj + s.ahead obj n

omit [DecidableEq K] [DecidableEq O] in
/-- Nothing happens to the lock. -/
theorem passes_of_eq (hobj : s'.objects obj = s.objects obj) (hgrants : s'.grants obj = s.grants obj)
    (hpoints : ∀ o' ∈ (s.objects obj).waiters.map Prod.fst, s'.points o' = s.points o') :
    Passes s s' o obj n where
  cancelled h := by rwa [hobj]
  ahead _ := by
    rw [KeyedLocks.ahead, hobj, hgrants]
    refine Nat.add_le_add_left (Nat.le_of_eq (List.countP_congr fun o' ho' => ?_)) _
    rw [hpoints o' ho']

omit [DecidableEq K] in
/-- A task does something to a lock, maybe the one that another waits for. -/
theorem Inv.passes_set (hs : s.Inv) (href : (s.points o').ref = some (k', obj')) {g : ℕ → ℕ}
    (hg : ∀ obj₁ ≠ obj', g obj₁ = s.grants obj₁) {m : ℕ}
    (hc : obj' = obj → (o, .cancelled) ∈ (s.objects obj).waiters → (o, .cancelled) ∈ l.waiters)
    (ha : obj' = obj → (o, .cancelled) ∉ l.waiters →
      g obj + (l.waiters.map Prod.fst).countP (fun o₁ =>
        (Function.update s.points o' p o₁).number < n) ≤ s.grants obj + s.ahead obj n) :
    Passes s { s.set o' obj' p l with next := m, grants := g } o obj n := by
  by_cases hobj : obj' = obj
  · have hl : Function.update s.objects obj' l obj = l := hobj ▸ Function.update_self ..
    refine ⟨fun h => ?_, fun h => ?_⟩
    · change _ ∈ (Function.update s.objects obj' l obj).waiters
      rw [hl]
      exact hc hobj h
    · change _ ∉ (Function.update s.objects obj' l obj).waiters at h
      rw [hl] at h
      change g obj + ((Function.update s.objects obj' l obj).waiters.map Prod.fst).countP (fun o₁ =>
        (Function.update s.points o' p o₁).number < n) ≤ _
      rw [hl]
      exact ha hobj h
  · have hout : o' ∉ (s.objects obj).waiters.map Prod.fst := hs.notMem_waiters fun hw => hobj <| by
      obtain ⟨k'', hk''⟩ := hw.ref
      exact congrArg Prod.snd (Option.some.inj (href.symm.trans hk''))
    exact passes_of_eq (Function.update_of_ne (Ne.symm hobj) _ _) (hg obj (Ne.symm hobj))
      fun o₁ h₁ => Function.update_of_ne (ne_of_mem_of_not_mem h₁ hout) _ _

omit [DecidableEq K] [DecidableEq O] in
/-- Who waits first has the least number. -/
theorem Inv.number_lt (hs : s.Inv) {f : LockFuture}
    (hhead : (s.objects obj).waiters.head? = some (o', f)) (hne : o' ≠ o)
    (hmem : o ∈ (s.objects obj).waiters.map Prod.fst) :
    (s.points o').number < (s.points o).number := by
  have hsorted := hs.sorted obj
  cases hw : (s.objects obj).waiters with
  | nil => simp [hw] at hhead
  | cons w ws =>
    obtain rfl : w = (o', f) := by simpa [hw] using hhead
    rw [hw, List.map_cons, List.mem_cons] at hmem
    rw [hw, List.map_cons, List.pairwise_cons] at hsorted
    exact hsorted.1 o (hmem.resolve_left (Ne.symm hne))

omit [DecidableEq K] in
/-- One task less is ahead when the first of those that wait leaves. -/
theorem Inv.countP_others_lt (hs : s.Inv) {f : LockFuture}
    (hhead : (s.objects obj).waiters.head? = some (o', f)) (hne : o' ≠ o)
    (hmem : o ∈ (s.objects obj).waiters.map Prod.fst) :
    (((s.objects obj).others o').map Prod.fst).countP (fun o₁ =>
        (s.points o₁).number < (s.points o).number) <
      ((s.objects obj).waiters.map Prod.fst).countP fun o₁ =>
        (s.points o₁).number < (s.points o).number := by
  have hlt := hs.number_lt hhead hne hmem
  rw [AsyncLock.others]
  cases hw : (s.objects obj).waiters with
  | nil => simp [hw] at hhead
  | cons w ws =>
    obtain rfl : w = (o', f) := by simpa [hw] using hhead
    rw [List.map_cons, List.countP_cons_of_pos (by simpa using hlt), List.filter_cons_of_neg (by simp),
      Nat.lt_succ_iff]
    exact (List.filter_sublist.map Prod.fst).countP_le

/-- What a step does to a lock that a task waits for. -/
theorem Step.passes (h : Step s lb s') (hs : s.Inv) (ho : s.Owned lb)
    (hp : s.points o = .waiting k obj n) (hp' : s'.points o = .waiting k obj n) :
    Passes s s' o obj n := by
  have hw : (s.points o).WaitsFor obj := by rw [hp]; rfl
  have hmem : o ∈ (s.objects obj).waiters.map Prod.fst := (hs.waits obj o).2 hw
  have hframe : ∀ {o' p}, ¬(s.points o').WaitsFor obj → ∀ o₁ ∈ (s.objects obj).waiters.map Prod.fst,
      Function.update s.points o' p o₁ = s.points o₁ := fun hn o₁ h₁ =>
    Function.update_of_ne (ne_of_mem_of_not_mem h₁ (hs.notMem_waiters hn)) _ _
  have hsame : ∀ obj' g, ∀ obj₁ ≠ obj', Function.update s.grants obj' g obj₁ = s.grants obj₁ :=
    fun _ _ _ h => Function.update_of_ne h _ _
  cases h with
  | @get o' k' obj' idle found =>
    exact passes_of_eq rfl rfl (hframe (by rw [idle]; exact id))
  | @make o' k' idle missing =>
    have hne : obj ≠ s.made := Nat.ne_of_lt (hs.lt_made k obj (hs.refs o k obj (by rw [hp]; rfl)))
    exact passes_of_eq (Function.update_of_ne hne _ _) rfl (hframe (by rw [idle]; exact id))
  | @take o' k' obj' l has taken =>
    obtain ⟨-, -, hall, rfl⟩ | ⟨h, -⟩ := AsyncLock.acquire_cases taken
    · refine hs.passes_set (p := .holding k' obj') (by rw [has]; rfl) (hsame _ _)
        (by rintro rfl; exact id) ?_
      rintro rfl hc
      -- All that wait are cancelled.
      obtain ⟨w, hwm, rfl⟩ := List.mem_map.1 hmem
      exact absurd (hall w hwm ▸ hwm) hc
    · exact absurd h nofun
  | @wait o' k' obj' l has busy =>
    obtain ⟨h, -⟩ | ⟨-, rfl⟩ := AsyncLock.acquire_cases busy
    · exact absurd h nofun
    have hnew : o' ∉ (s.objects obj').waiters.map Prod.fst :=
      hs.notMem_waiters (by rw [has]; exact id)
    have hlt := hs.lt_next o obj hw
    rw [hp] at hlt
    refine hs.passes_set (p := .waiting k' obj' s.next) (by rw [has]; rfl) (fun _ _ => rfl) ?_ ?_
    · rintro rfl
      exact List.mem_append_left _
    · rintro rfl -
      -- The number it draws is greater.
      have hge : ¬s.next < n := Nat.not_lt.2 (Nat.le_of_lt hlt)
      rw [List.map_append, List.countP_append, countP_update hnew]
      simp [LockPoint.number, hge, KeyedLocks.ahead]
  | @cancel o' k' obj' n' waits =>
    refine hs.passes_set (p := .waiting k' obj' n') (by rw [waits]; rfl) (fun _ _ => rfl) ?_ ?_
    · rintro rfl hc
      refine List.mem_map.2 ⟨_, hc, ?_⟩
      split <;> rfl
    · rintro rfl -
      rw [AsyncLock.map_fst_cancel, ← waits, Function.update_eq_self]
      exact Nat.le_refl _
  | @resume o' k' obj' n' l waits resumed =>
    obtain ⟨-, hfree, hhead, rfl⟩ | ⟨h, -⟩ | ⟨h, -⟩ :=
      AsyncLock.resume_cases (hs.wellFormed obj') resumed
    · have hne : o ≠ o' := by
        rintro rfl
        exact absurd ((Function.update_self ..).symm.trans hp') nofun
      refine hs.passes_set (p := .holding k' obj') (by rw [waits]; rfl) (hsame _ _) ?_ ?_
      · rintro rfl hc
        exact AsyncLock.mem_others.2 ⟨hc, hne⟩
      · rintro rfl -
        rw [Function.update_self, countP_update fun h => (AsyncLock.mem_map_fst_others.1 h).1 rfl]
        have hlt := hs.countP_others_lt hhead (o := o) (fun h => hne h.symm) hmem
        rw [hp] at hlt
        unfold KeyedLocks.ahead
        exact Nat.add_right_comm .. ▸ Nat.add_lt_add_left hlt _
    · exact absurd h nofun
    · exact absurd h nofun
  | @giveUp o' k' obj' n' l waits resumed =>
    have hne : o ≠ o' := by
      rintro rfl
      exact absurd ((Function.update_self ..).symm.trans hp') nofun
    have hle : obj' = obj → (((s.objects obj').others o').map Prod.fst).countP (fun o₁ =>
        (Function.update s.points o' (.has k' obj') o₁).number < n) ≤ s.ahead obj n := by
      rintro rfl
      rw [countP_update fun h => (AsyncLock.mem_map_fst_others.1 h).1 rfl]
      exact AsyncLock.map_fst_others_sublist.countP_le
    obtain ⟨h, -⟩ | ⟨-, hlocked, rfl⟩ | ⟨-, hfree, rfl⟩ :=
      AsyncLock.resume_cases (hs.wellFormed obj') resumed
    · exact absurd h nofun
    · refine hs.passes_set (p := .has k' obj') (by rw [waits]; rfl) (fun _ _ => rfl) ?_ ?_
      · rintro rfl hc
        exact AsyncLock.mem_others.2 ⟨hc, hne⟩
      · exact fun hobj _ => Nat.add_le_add_left (hle hobj) _
    · refine hs.passes_set (p := .has k' obj') (by rw [waits]; rfl) (fun _ _ => rfl) ?_ ?_
      · rintro rfl hc
        exact mem_cancelled_wakeUpFirst (AsyncLock.mem_others.2 ⟨hc, hne⟩)
      · rw [AsyncLock.map_fst_wakeUpFirst]
        exact fun hobj _ => Nat.add_le_add_left (hle hobj) _
  | @release o' k' obj' l refers released =>
    obtain ⟨-, rfl⟩ := AsyncLock.release_eq_some_iff.1 released
    have href : (s.points o').ref = some (k', obj') := by rcases refers with h | h <;> rw [h] <;> rfl
    have hout : o' ∉ (s.objects obj').waiters.map Prod.fst := hs.notMem_waiters (by
      rcases refers with h | h <;> rw [h] <;> exact id)
    refine hs.passes_set (p := .has k' obj') href (fun _ _ => rfl) ?_ ?_
    · rintro rfl hc
      exact mem_cancelled_wakeUpFirst hc
    · rintro rfl -
      rw [AsyncLock.map_fst_wakeUpFirst, countP_update hout]
      exact Nat.le_refl _
  | @drop o' k' obj' has =>
    exact passes_of_eq rfl rfl (hframe (by rw [has]; exact id))
  | collect => exact passes_of_eq rfl rfl fun _ _ => rfl

/-! ### Runs -/

/-- A task is overtaken by no more tasks than are ahead of it: as long as it waits, the lock is
    taken as often as there are less tasks ahead, at most. -/
theorem grants_add_ahead_le (hs : s.Inv) (hp : s.points o = .waiting k obj n)
    (h : (keyedLocksLts K O).RunUnder Owned s s') (hp' : s'.points o = .waiting k obj n)
    (hc : (o, .cancelled) ∉ (s'.objects obj).waiters) :
    s'.grants obj + s'.ahead obj n ≤ s.grants obj + s.ahead obj n := by
  have hlt := hs.lt_next o obj (by rw [hp]; rfl)
  rw [hp] at hlt
  have hinv := h.invariant (I := fun s₁ => s₁.Inv ∧ n < s₁.next ∧
    (s₁.points o = .waiting k obj n → (o, .cancelled) ∉ (s₁.objects obj).waiters →
      s₁.grants obj + s₁.ahead obj n ≤ s.grants obj + s.ahead obj n))
    ⟨hs, hlt, fun _ _ => Nat.le_refl _⟩ ?_
  · exact hinv.2.2 hp' hc
  · rintro s₁ lb s₂ ⟨hi, hlt, ih⟩ hown (hst : Step s₁ lb s₂)
    refine ⟨hst.inv hi hown, Nat.lt_of_lt_of_le hlt hst.next_le, fun hp₂ hc₂ => ?_⟩
    -- It has not come to wait since.
    have hp₁ := (hst.waiting hp₂).resolve_right (Nat.ne_of_lt hlt)
    have hpass := hst.passes hi hown hp₁ hp₂
    exact Nat.le_trans (hpass.ahead hc₂) (ih hp₁ fun hc₁ => hc₂ (hpass.cancelled hc₁))

/-- Who gets the lock that another waits for was ahead of it. -/
theorem Step.overtakes (h : Step s lb s') (hs : s.Inv) (hp : s.points o = .waiting k obj n)
    (hc : (o, .cancelled) ∉ (s.objects obj).waiters) (hne : o' ≠ o)
    (hold : s'.points o' = .holding k' obj) :
    s.points o' = .holding k' obj ∨ ∃ n' < n, s.points o' = .waiting k' obj n' := by
  have hmem : o ∈ (s.objects obj).waiters.map Prod.fst := (hs.waits obj o).2 (by rw [hp]; rfl)
  have hcase : ∀ {o₁ p}, Function.update s.points o₁ p o' = .holding k' obj →
      s.points o' = .holding k' obj ∨ o₁ = o' ∧ p = .holding k' obj := by
    intro o₁ p hp
    rw [Function.update_apply] at hp
    split at hp
    case isTrue ho => exact .inr ⟨ho.symm, hp⟩
    case isFalse => exact .inl hp
  cases h with
  | take has taken =>
    refine (hcase hold).imp_right ?_
    rintro ⟨rfl, hpt⟩
    obtain ⟨rfl, rfl⟩ := LockPoint.holding.inj hpt
    obtain ⟨-, -, hall, -⟩ | ⟨h, -⟩ := AsyncLock.acquire_cases taken
    · -- All that wait are cancelled.
      obtain ⟨w, hw, rfl⟩ := List.mem_map.1 hmem
      exact absurd (hall w hw ▸ hw) hc
    · exact absurd h nofun
  | @resume o₁ k₁ obj₁ n₁ l waits resumed =>
    refine (hcase hold).imp_right ?_
    rintro ⟨rfl, hpt⟩
    obtain ⟨rfl, rfl⟩ := LockPoint.holding.inj hpt
    obtain ⟨-, -, hhead, -⟩ | ⟨h, -⟩ | ⟨h, -⟩ := AsyncLock.resume_cases (hs.wellFormed _) resumed
    · have hlt := hs.number_lt hhead hne hmem
      rw [hp, waits] at hlt
      exact ⟨n₁, hlt, waits⟩
    · exact absurd h nofun
    · exact absurd h nofun
  | collect => exact .inl hold
  | _ => exact .inl ((hcase hold).resolve_right fun h => absurd h.2 nofun)

/-- As long as a task waits, and is not cancelled, the lock goes to those that were ahead. -/
theorem not_overtaken (hs : s.Inv) (hp : s.points o = .waiting k obj n)
    (h : (keyedLocksLts K O).RunUnder Owned s s') (hp' : s'.points o = .waiting k obj n)
    (hc : (o, .cancelled) ∉ (s'.objects obj).waiters) (hold : s'.points o' = .holding k' obj) :
    s.points o' = .holding k' obj ∨ ∃ n' < n, s.points o' = .waiting k' obj n' := by
  have hlt := hs.lt_next o obj (by rw [hp]; rfl)
  rw [hp] at hlt
  have hne : o' ≠ o := by
    rintro rfl
    exact absurd (hp'.symm.trans hold) nofun
  have hinv := h.invariant (I := fun s₁ => s₁.Inv ∧ n < s₁.next ∧
    (s₁.points o = .waiting k obj n → (o, .cancelled) ∉ (s₁.objects obj).waiters →
      s₁.points o' = .holding k' obj →
        s.points o' = .holding k' obj ∨ ∃ n' < n, s.points o' = .waiting k' obj n') ∧
    ∀ n' < n, s₁.points o' = .waiting k' obj n' → s.points o' = .waiting k' obj n')
    ⟨hs, hlt, fun _ _ => .inl, fun _ _ => id⟩ ?_
  · exact hinv.2.2.1 hp' hc hold
  · rintro s₁ lb s₂ ⟨hi, hlt, ih, ihw⟩ hown (hst : Step s₁ lb s₂)
    refine ⟨hst.inv hi hown, Nat.lt_of_lt_of_le hlt hst.next_le, fun hp₂ hc₂ hold₂ => ?_,
      fun n' hn' hp₂ => ?_⟩
    · have hp₁ := (hst.waiting hp₂).resolve_right (Nat.ne_of_lt hlt)
      have hc₁ := fun h => hc₂ ((hst.passes hi hown hp₁ hp₂).cancelled h)
      rcases hst.overtakes hi hp₁ hc₁ hne hold₂ with hold₁ | ⟨n', hn', hw⟩
      · exact ih hp₁ hc₁ hold₁
      · exact .inr ⟨n', hn', ihw n' hn' hw⟩
    · exact ihw n' hn' ((hst.waiting hp₂).resolve_right (Nat.ne_of_lt (Nat.lt_trans hn' hlt)))

/-! ### Progress -/

/-- No call is lost: while a lock is free, one of the tasks that wait for it resumes. -/
theorem Inv.exists_resume (hs : s.Inv) (hp : s.points o = .waiting k obj n)
    (hfree : (s.objects obj).locked = false) :
    ∃ o' k' n' s', s.points o' = .waiting k' obj n' ∧ Step s (.resume o') s' := by
  have hmem : o ∈ (s.objects obj).waiters.map Prod.fst := (hs.waits obj o).2 (by rw [hp]; rfl)
  -- It is the first of them.
  obtain ⟨⟨o₁, f⟩, hhead⟩ : ∃ w, (s.objects obj).waiters.head? = some w := by
    cases hw : (s.objects obj).waiters with
    | nil => simp [hw] at hmem
    | cons w ws => exact ⟨w, rfl⟩
  have hmem₁ : (o₁, f) ∈ (s.objects obj).waiters := List.mem_of_mem_head? hhead
  have hfut := (AsyncLock.future_eq_some_iff (hs.wellFormed obj).nodup).2 hmem₁
  obtain ⟨k₁, n₁, hp₁⟩ :=
    ((hs.waits obj o₁).1 (List.mem_map_of_mem hmem₁)).exists_eq
  cases f with
  | pending => exact absurd rfl ((hs.wellFormed obj).free hfree _ hhead)
  | called => exact ⟨o₁, k₁, n₁, _, hp₁, .resume hp₁ (by rw [AsyncLock.resume, hfut])⟩
  | cancelled | revoked =>
    exact ⟨o₁, k₁, n₁, _, hp₁, .giveUp hp₁ (by rw [AsyncLock.resume, hfut])⟩

/-- A task resumes without the lock only if it has been cancelled. -/
theorem Inv.mem_of_giveUp (hs : s.Inv) (h : Step s (.resume o) s')
    (hp : s'.points o = .has k obj) :
    ∃ f, f.IsCancelled ∧ (o, f) ∈ (s.objects obj).waiters := by
  cases h with
  | resume => simp at hp
  | giveUp waits resumed =>
    obtain ⟨rfl, rfl⟩ := LockPoint.has.inj <|
      (Function.update_self (β := fun _ => LockPoint K) ..).symm.trans hp
    obtain ⟨f, hf, hfut⟩ := AsyncLock.future_of_giveUp resumed
    exact ⟨f, hf, (AsyncLock.future_eq_some_iff (hs.wellFormed _).nodup).1 hfut⟩

/-- Only a cancellation cancels a task that waits. -/
theorem Step.mem_of_cancelled {f : LockFuture} (h : Step s lb s') (hlb : ∀ o, lb ≠ .cancel o)
    (hf : f.IsCancelled) (hmem : (o, f) ∈ (s'.objects obj).waiters) :
    (o, f) ∈ (s.objects obj).waiters := by
  have hcase : ∀ {obj' l}, (o, f) ∈ (Function.update s.objects obj' l obj).waiters →
      ((o, f) ∈ l.waiters → (o, f) ∈ (s.objects obj').waiters) →
      (o, f) ∈ (s.objects obj).waiters := by
    intro obj' l hmem hl
    rw [Function.update_apply] at hmem
    split at hmem
    case isTrue hobj => exact hobj ▸ hl hmem
    case isFalse => exact hmem
  cases h with
  | cancel => exact absurd rfl (hlb _)
  | get | drop | collect => exact hmem
  | make => exact hcase hmem fun h => absurd h List.not_mem_nil
  | take has taken =>
    obtain ⟨-, -, -, rfl⟩ | ⟨h, -⟩ := AsyncLock.acquire_cases taken
    · exact hcase hmem id
    · exact absurd h nofun
  | wait has busy =>
    obtain ⟨h, -⟩ | ⟨-, rfl⟩ := AsyncLock.acquire_cases busy
    · exact absurd h nofun
    · refine hcase hmem fun h => (List.mem_append.1 h).resolve_right fun h => ?_
      obtain rfl : f = .pending := congrArg Prod.snd (List.mem_singleton.1 h)
      simp [LockFuture.IsCancelled] at hf
  | resume waits resumed | giveUp waits resumed =>
    refine hcase hmem fun h => ?_
    exact AsyncLock.mem_of_mem_resume resumed hf h
  | release refers released =>
    obtain ⟨-, rfl⟩ := AsyncLock.release_eq_some_iff.1 released
    exact hcase hmem (AsyncLock.mem_of_mem_wakeUpFirst hf)

/-- A lock is made for a task that gets it. -/
theorem Step.dict_cases (h : Step s lb s') (hk : s'.dict k ≠ none) :
    s.dict k ≠ none ∨ ∃ o, lb = .get o k := by
  cases h with
  | @make o k' =>
    by_cases hkk : k = k'
    · exact .inr ⟨o, hkk ▸ rfl⟩
    · exact .inl (Function.update_of_ne hkk _ s.dict ▸ hk)
  | @collect k' =>
    by_cases hkk : k = k'
    · subst hkk
      exact absurd (Function.update_self ..) hk
    · exact .inl (Function.update_of_ne hkk _ s.dict ▸ hk)
  | _ => exact .inl hk

/-- How many of some keys have a lock. -/
def present (dict : K → Option ℕ) (ks : Finset K) : ℕ :=
  (ks.filter fun k => (dict k).isSome = true).card

variable {dict : K → Option ℕ} {ks : Finset K}

omit [DecidableEq O] in
theorem filter_update_none_subset :
    (ks.filter fun k' => (Function.update dict k none k').isSome = true) ⊆
    ks.filter fun k' => (dict k').isSome = true := by
  intro k' hk'
  rw [Finset.mem_filter, Function.update_apply] at hk'
  split at hk'
  · simp at hk'
  · exact Finset.mem_filter.2 hk'

theorem present_lt_of_collect (hk : (dict k).isSome = true) (hmem : k ∈ ks) :
    present (Function.update dict k none) ks < present dict ks := by
  refine Finset.card_lt_card ((Finset.ssubset_iff_of_subset filter_update_none_subset).2 ⟨k, ?_, ?_⟩)
  · exact Finset.mem_filter.2 ⟨hmem, hk⟩
  · simp

/-- A step makes one lock at most. -/
theorem Step.present_le (h : Step s lb s') (ks : Finset K) :
    present s'.dict ks ≤ present s.dict ks + 1 := by
  cases h with
  | @make o k idle missing =>
    refine (Finset.card_le_card fun k' hk' => ?_).trans (Finset.card_insert_le k _)
    obtain ⟨hmem, hk'⟩ := Finset.mem_filter.1 hk'
    by_cases hkk : k' = k
    · exact Finset.mem_insert.2 (.inl hkk)
    · refine Finset.mem_insert_of_mem (Finset.mem_filter.2 ⟨hmem, ?_⟩)
      exact Function.update_of_ne hkk _ s.dict ▸ hk'
  | collect => exact Nat.le_succ_of_le (Finset.card_le_card filter_update_none_subset)
  | _ => exact Nat.le_succ _

end KeyedLocks
