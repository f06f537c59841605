import Pyroflow.Commands.Publishing

/-!
# The locks of the dispatcher

Who holds which locks while handlers are added and removed, and their commands are collected
and sent. A task takes the locks one after the other: first `bot_command_groups_lock`, if it
takes it, and then those of the workers. At any time a lock has one holder at most
(`TrackingState.Exclusive`). So handlers are added and removed, and commands collected and
discarded, by a task that has all the locks it takes to itself
(`TrackingState.Step.alone_of_registered`, `TrackingState.Step.alone_of_groups`), and meanwhile
no worker is at work, and no commands are being sent (`PublishingState.client_still`).
-/

namespace Pyroflow

variable {Scope BotCommand Handler : Type}

/-- Who may hold a lock: whoever uses it alone, which is a worker or, of
    `bot_command_groups_lock`, `push_bot_commands` or `remove_bot_commands`; or one of the
    tasks of a call. -/
inductive LockHolder
  | alone
  | pyro (i : ℕ)
  | track (i : ℕ)
  deriving DecidableEq

namespace TrackingState

variable (s : TrackingState Scope BotCommand Handler)

/-- The holder has the lock. -/
def Holds : LockHolder → ℕ → Prop
  | .alone, 0 => s.pushing = true
  | .alone, worker + 1 => s.busy worker = true
  | .pyro i, lock => ∃ c k, s.calls[i]? = some c ∧ c.pyro = .waiting k ∧ 1 ≤ lock ∧ lock < k
  | .track i, lock => ∃ c k, s.calls[i]? = some c ∧ c.track = .waiting k ∧ lock < k

/-- A lock has one holder at most. -/
def Exclusive : Prop := ∀ lock o o', s.Holds o lock → s.Holds o' lock → o = o'

variable {s} {s' : TrackingState Scope BotCommand Handler} {c c' : TrackedCall Handler}
  {o o' : LockHolder} {i k lock workers : ℕ}

/-- The locks that are taken are those with a holder. -/
theorem locked_iff : s.locked lock = true ↔ ∃ o, s.Holds o lock := by
  have hlocked : s.locked lock = true ↔
      s.Holds .alone lock ∨ (s.calls.any fun c => c.holds lock) = true := by
    cases lock <;> exact Bool.or_eq_true_iff
  rw [hlocked, List.any_eq_true]
  constructor
  · rintro (h | ⟨c, hc, h⟩)
    · exact ⟨_, h⟩
    · obtain ⟨i, hi⟩ := List.mem_iff_getElem?.1 hc
      rw [TrackedCall.holds, Bool.or_eq_true] at h
      rcases h with h | h
      · cases hp : c.pyro with
        | waiting k =>
          rw [hp] at h
          exact ⟨.pyro i, c, k, hi, hp, of_decide_eq_true h⟩
        | _ => rw [hp] at h; exact absurd h Bool.false_ne_true
      · cases ht : c.track with
        | waiting k =>
          rw [ht] at h
          exact ⟨.track i, c, k, hi, ht, of_decide_eq_true h⟩
        | _ => rw [ht] at h; exact absurd h Bool.false_ne_true
  · rintro ⟨_ | i | i, h⟩
    · exact .inl h
    · obtain ⟨c, k, hc, hp, h⟩ := h
      refine .inr ⟨c, List.mem_of_getElem? hc, ?_⟩
      rw [TrackedCall.holds, hp]
      simp [h]
    · obtain ⟨c, k, hc, ht, h⟩ := h
      refine .inr ⟨c, List.mem_of_getElem? hc, ?_⟩
      rw [TrackedCall.holds, ht]
      simp [h]

theorem not_holds_of_locked (h : s.locked lock = false) : ¬s.Holds o lock := fun ho => by
  rw [locked_iff.2 ⟨o, ho⟩] at h
  cases h

theorem not_locked_of_contended (h : s.contended lock = false) : s.locked lock = false := by
  rw [contended, Bool.or_eq_false_iff] at h
  exact h.1

/-- A lock that blocks a task is a lock in the order, and those before it are free. -/
theorem of_blockedFrom (h : s.blockedFrom workers lock = some k) :
    lock ≤ k ∧ k ≤ workers ∧ ∀ j, lock ≤ j → j < k → s.locked j = false := by
  rw [blockedFrom, List.find?_range'_eq_some, List.mem_range'_1] at h
  obtain ⟨-, ⟨hle, hlt⟩, hfree⟩ := h
  refine ⟨hle, by omega, fun j hj hjk => not_locked_of_contended ?_⟩
  simpa using hfree j hj hjk

/-- A task that is not blocked finds all locks free that it has yet to take. -/
theorem of_blockedFrom_none (h : s.blockedFrom workers lock = none) {j : ℕ} (hj : lock ≤ j)
    (hle : j ≤ workers) : s.locked j = false := by
  refine not_locked_of_contended (eq_false_of_ne_true ?_)
  exact List.find?_eq_none.1 h j (List.mem_range'_1.2 ⟨hj, by omega⟩)

/-! ### One holder at most -/

/-- One holder takes locks that are free, and the others take none. -/
theorem Exclusive.take (h : s.Exclusive) (o : LockHolder)
    (hothers : ∀ o' lock, o' ≠ o → s'.Holds o' lock → s.Holds o' lock)
    (htakes : ∀ lock, s'.Holds o lock → s.Holds o lock ∨ s.locked lock = false) :
    s'.Exclusive := by
  -- What the holder has, none of the others has.
  have hne {o' lock} (ho' : o' ≠ o) (h₁ : s'.Holds o lock) (h₂ : s'.Holds o' lock) : False := by
    have h₂ := hothers o' lock ho' h₂
    rcases htakes lock h₁ with h₁ | hfree
    · exact ho' (h lock o' o h₂ h₁)
    · exact not_holds_of_locked hfree h₂
  intro lock o₁ o₂ h₁ h₂
  by_cases ho₁ : o₁ = o <;> by_cases ho₂ : o₂ = o
  · rw [ho₁, ho₂]
  · exact (hne ho₂ (ho₁ ▸ h₁) h₂).elim
  · exact (hne ho₁ (ho₂ ▸ h₂) h₁).elim
  · exact h lock o₁ o₂ (hothers o₁ lock ho₁ h₁) (hothers o₂ lock ho₂ h₂)

variable (s s') in
/-- The tasks of the calls are where they were, and who uses a lock alone does so still. -/
structure SameLocks : Prop where
  calls : s'.calls = s.calls
  busy : s'.busy = s.busy
  pushing : s'.pushing = s.pushing

theorem SameLocks.holds (h : SameLocks s s') : s'.Holds o lock ↔ s.Holds o lock := by
  cases o with
  | alone => cases lock <;> simp only [Holds, h.busy, h.pushing]
  | pyro | track => simp only [Holds, h.calls]

/-- A task of the call `i` has got on: the others hold what they held. -/
theorem Holds.of_setCall (hc : s.calls[i]? = some c) (h : (s.setCall i c').Holds o lock)
    (hpyro : o = .pyro i → c'.pyro = c.pyro) (htrack : o = .track i → c'.track = c.track) :
    s.Holds o lock := by
  have hcall {j d} (hj : (s.setCall i c').calls[j]? = some d) :
      j = i ∧ d = c' ∨ s.calls[j]? = some d := by
    rw [setCall, List.getElem?_set] at hj
    split at hj
    · split at hj
      · exact .inl ⟨‹i = j›.symm, (Option.some.inj hj).symm⟩
      · cases hj
    · exact .inr hj
  cases o with
  | alone => cases lock <;> exact h
  | pyro j =>
    obtain ⟨d, k, hj, hp, hk⟩ := h
    rcases hcall hj with ⟨rfl, rfl⟩ | hj
    · exact ⟨c, k, hc, (hpyro rfl).symm.trans hp, hk⟩
    · exact ⟨d, k, hj, hp, hk⟩
  | track j =>
    obtain ⟨d, k, hj, ht, hk⟩ := h
    rcases hcall hj with ⟨rfl, rfl⟩ | hj
    · exact ⟨c, k, hc, (htrack rfl).symm.trans ht, hk⟩
    · exact ⟨d, k, hj, ht, hk⟩

theorem holds_pyro_self (hc : s.calls[i]? = some c) :
    s.Holds (.pyro i) lock ↔ ∃ k, c.pyro = .waiting k ∧ 1 ≤ lock ∧ lock < k := by
  constructor
  · rintro ⟨c', k, hc', h⟩
    obtain rfl := Option.some.inj (hc.symm.trans hc')
    exact ⟨k, h⟩
  · rintro ⟨k, h⟩
    exact ⟨c, k, hc, h⟩

theorem holds_track_self (hc : s.calls[i]? = some c) :
    s.Holds (.track i) lock ↔ ∃ k, c.track = .waiting k ∧ lock < k := by
  constructor
  · rintro ⟨c', k, hc', h⟩
    obtain rfl := Option.some.inj (hc.symm.trans hc')
    exact ⟨k, h⟩
  · rintro ⟨k, h⟩
    exact ⟨c, k, hc, h⟩

/-- The call that has got on. -/
theorem getElem?_setCall (hc : s.calls[i]? = some c) : (s.setCall i c').calls[i]? = some c' :=
  List.getElem?_set_self (List.getElem?_eq_some_iff.1 hc).1

/-- The locks before one, as far as Pyrogram's task takes them, are had by the task or free. -/
def PyroHas (s : TrackingState Scope BotCommand Handler) (i lock : ℕ) : Prop :=
  ∀ j, 1 ≤ j → j < lock → s.Holds (.pyro i) j ∨ s.locked j = false

/-- The locks before one are had by the bookkeeping or free. -/
def TrackHas (s : TrackingState Scope BotCommand Handler) (i lock : ℕ) : Prop :=
  ∀ j, j < lock → s.Holds (.track i) j ∨ s.locked j = false

theorem pyroHas_one : s.PyroHas i 1 := fun j hj hlt => by omega

theorem trackHas_zero : s.TrackHas i 0 := fun j hlt => by omega

/-- A task that waits for a lock that is free. -/
theorem PyroHas.of_waiting (hc : s.calls[i]? = some c) (hp : c.pyro = .waiting lock)
    (hfree : s.locked lock = false) : s.PyroHas i (lock + 1) := by
  intro j hj hlt
  rcases Nat.lt_succ_iff_lt_or_eq.1 hlt with hlt | rfl
  · exact .inl ((holds_pyro_self hc).2 ⟨lock, hp, hj, hlt⟩)
  · exact .inr hfree

theorem TrackHas.of_waiting (hc : s.calls[i]? = some c) (ht : c.track = .waiting lock)
    (hfree : s.locked lock = false) : s.TrackHas i (lock + 1) := by
  intro j hlt
  rcases Nat.lt_succ_iff_lt_or_eq.1 hlt with hlt | rfl
  · exact .inl ((holds_track_self hc).2 ⟨lock, ht, hlt⟩)
  · exact .inr hfree

variable (s workers) in
/-- A lock has one holder at most, the workers at work are among those there are, and the tasks
    wait for locks that there are. -/
structure Orderly : Prop where
  exclusive : s.Exclusive
  busy_lt : ∀ i, s.busy i = true → i < workers
  waits_le : ∀ c ∈ s.calls, ∀ k, c.pyro = .waiting k ∨ c.track = .waiting k → k ≤ workers

/-- Pyrogram's task of a call gets on: it waits for a lock with those before it, or for none. -/
theorem Orderly.setPyro {p : PyroTask} (h : s.Orderly workers) (hc : s.calls[i]? = some c)
    (hs' : SameLocks (s.setCall i { c with pyro := p }) s')
    (hp : ∀ k, p = .waiting k → k ≤ workers ∧ s.PyroHas i k) : s'.Orderly workers where
  exclusive := by
    refine h.exclusive.take (.pyro i) (fun o lock ho hold => ?_) (fun j hold => ?_)
    · exact Holds.of_setCall hc (hs'.holds.1 hold) (fun h => absurd h ho) fun _ => rfl
    · obtain ⟨k, hk, hj, hlt⟩ := (holds_pyro_self (getElem?_setCall hc)).1 (hs'.holds.1 hold)
      exact (hp k hk).2 j hj hlt
  busy_lt := hs'.busy ▸ h.busy_lt
  waits_le d hd k hk := by
    rw [hs'.calls] at hd
    rcases List.mem_or_eq_of_mem_set hd with hd | rfl
    · exact h.waits_le d hd k hk
    · rcases hk with hk | hk
      · exact (hp k hk).1
      · exact h.waits_le c (List.mem_of_getElem? hc) k (.inr hk)

/-- So does the bookkeeping. -/
theorem Orderly.setTrack {t : TrackTask} (h : s.Orderly workers) (hc : s.calls[i]? = some c)
    (hs' : SameLocks (s.setCall i { c with track := t }) s')
    (ht : ∀ k, t = .waiting k → k ≤ workers ∧ s.TrackHas i k) : s'.Orderly workers where
  exclusive := by
    refine h.exclusive.take (.track i) (fun o lock ho hold => ?_) (fun j hold => ?_)
    · exact Holds.of_setCall hc (hs'.holds.1 hold) (fun _ => rfl) fun h => absurd h ho
    · obtain ⟨k, hk, hlt⟩ := (holds_track_self (getElem?_setCall hc)).1 (hs'.holds.1 hold)
      exact (ht k hk).2 j hlt
  busy_lt := hs'.busy ▸ h.busy_lt
  waits_le d hd k hk := by
    rw [hs'.calls] at hd
    rcases List.mem_or_eq_of_mem_set hd with hd | rfl
    · exact h.waits_le d hd k hk
    · rcases hk with hk | hk
      · exact h.waits_le c (List.mem_of_getElem? hc) k (.inl hk)
      · exact (ht k hk).1

/-! ### The steps of the tasks -/

section Register

variable [DecidableEq Handler]

variable (s i c) in
theorem sameLocks_register : ∃ p, (p = .done ∨ p = .rejected) ∧
    SameLocks (s.setCall i { c with pyro := p }) (s.register i c) := by
  rw [register]
  split
  · exact ⟨.done, .inl rfl, rfl, rfl, rfl⟩
  · split
    · exact ⟨.done, .inl rfl, rfl, rfl, rfl⟩
    · exact ⟨.rejected, .inr rfl, rfl, rfl, rfl⟩

variable (s workers i c lock) in
/-- Pyrogram's task comes to wait for a lock, or is done. -/
theorem runPyro_cases : ∃ p, SameLocks (s.setCall i { c with pyro := p })
      (s.runPyro workers i c lock) ∧
    (p = .done ∨ p = .rejected ∨ ∃ k, p = .waiting k ∧ s.blockedFrom workers lock = some k) := by
  rw [runPyro]
  split
  case h_1 k hk => exact ⟨.waiting k, ⟨rfl, rfl, rfl⟩, .inr (.inr ⟨k, rfl, hk⟩)⟩
  case h_2 =>
    obtain ⟨p, hp, hs⟩ := sameLocks_register s c i
    exact ⟨p, hs, hp.imp_right .inl⟩

theorem Orderly.runPyro (h : s.Orderly workers) (hc : s.calls[i]? = some c)
    (hhas : s.PyroHas i lock) : (s.runPyro workers i c lock).Orderly workers := by
  obtain ⟨p, hs, hp⟩ := runPyro_cases s c i lock workers
  refine h.setPyro hc hs fun k hk => ?_
  subst hk
  obtain ⟨k', hk', hblocked⟩ := (hp.resolve_left nofun).resolve_left nofun
  obtain rfl := PyroTask.waiting.inj hk'
  obtain ⟨-, hle, hfree⟩ := of_blockedFrom hblocked
  refine ⟨hle, fun j hj hlt => ?_⟩
  by_cases hj' : j < lock
  · exact hhas j hj hj'
  · exact .inr (hfree j (Nat.le_of_not_lt hj') hlt)

end Register

section Track

variable [DecidableEq Scope] [DecidableEq BotCommand]
  {marks : Handler → List (BotCommandEntry Scope BotCommand)}

variable (s workers i c lock marks) in
/-- The bookkeeping comes to wait for a lock, or is done. -/
theorem runTrack_cases : ∃ t, SameLocks (s.setCall i { c with track := t })
      (s.runTrack workers i c lock marks) ∧
    (t = .done ∨ ∃ k, t = .waiting k ∧ s.blockedFrom workers lock = some k) := by
  rw [runTrack]
  split
  case h_1 k hk => exact ⟨.waiting k, ⟨rfl, rfl, rfl⟩, .inr ⟨k, rfl, hk⟩⟩
  case h_2 => exact ⟨.done, ⟨rfl, rfl, rfl⟩, .inl rfl⟩

theorem Orderly.runTrack (h : s.Orderly workers) (hc : s.calls[i]? = some c)
    (hhas : s.TrackHas i lock) : (s.runTrack workers i c lock marks).Orderly workers := by
  obtain ⟨t, hs, ht⟩ := runTrack_cases s c i lock workers marks
  refine h.setTrack hc hs fun k hk => ?_
  subst hk
  obtain ⟨k', hk', hblocked⟩ := ht.resolve_left nofun
  obtain rfl := TrackTask.waiting.inj hk'
  obtain ⟨-, hle, hfree⟩ := of_blockedFrom hblocked
  refine ⟨hle, fun j hlt => ?_⟩
  by_cases hj' : j < lock
  · exact hhas j hj'
  · exact .inr (hfree j (Nat.le_of_not_lt hj') hlt)

end Track

variable [DecidableEq Scope] [DecidableEq BotCommand] [DecidableEq Handler]
  {marks : Handler → List (BotCommandEntry Scope BotCommand)} {l : TrackingLabel Handler}

variable (s workers i c marks) in
/-- The bookkeeping starts: it takes the locks, or has nothing to do. -/
theorem startTrack_cases :
    s.startTrack workers i c marks = s.runTrack workers i c 0 marks ∧
        s.isRegistered c.handler = c.added ∨
      s.startTrack workers i c marks = s.setCall i { c with track := .done } := by
  rw [startTrack]
  split
  · exact .inr rfl
  · split
    · exact .inl ⟨rfl, ‹_›⟩
    · exact .inr rfl

theorem Step.orderly (hst : Step marks workers s l s') (h : s.Orderly workers) :
    s'.Orderly workers := by
  cases hst with
  | call added handler group =>
    let new : TrackedCall Handler := { added, handler, group }
    have hcall {j : ℕ} {d} (hj : (s.calls ++ [new])[j]? = some d) :
        s.calls[j]? = some d ∨ d.pyro = .created ∧ d.track = .created := by
      rw [List.getElem?_append] at hj
      split at hj
      · exact .inl hj
      · obtain rfl := List.mem_singleton.1 (List.mem_of_getElem? hj)
        exact .inr ⟨rfl, rfl⟩
    refine ⟨h.exclusive.take .alone (fun o lock ho hold => ?_) fun lock hold => ?_, h.busy_lt, ?_⟩
    · cases o with
      | alone => exact absurd rfl ho
      | pyro j =>
        obtain ⟨d, k, hj, hp, hk⟩ := hold
        rcases hcall hj with hj | ⟨hn, -⟩
        · exact ⟨d, k, hj, hp, hk⟩
        · exact absurd (hn.symm.trans hp) nofun
      | track j =>
        obtain ⟨d, k, hj, ht, hk⟩ := hold
        rcases hcall hj with hj | ⟨-, hn⟩
        · exact ⟨d, k, hj, ht, hk⟩
        · exact absurd (hn.symm.trans ht) nofun
    · cases lock <;> exact .inl hold
    · intro d hd k hk
      rcases List.mem_append.1 hd with hd | hd
      · exact h.waits_le d hd k hk
      · obtain rfl := List.mem_singleton.1 hd
        exact hk.elim nofun nofun
  | @work w hlt hfree =>
    refine ⟨h.exclusive.take .alone (fun o lock ho hold => ?_) fun lock hold => ?_, fun j hj => ?_,
      h.waits_le⟩
    · cases o with
      | alone => exact absurd rfl ho
      | pyro | track => exact hold
    · cases lock with
      | zero => exact .inl hold
      | succ j =>
        by_cases hj : j = w
        · exact .inr (hj ▸ hfree)
        · exact .inl ((Function.update_of_ne hj _ s.busy).symm.trans hold)
    · by_cases hjw : j = w
      · exact hjw ▸ hlt
      · exact h.busy_lt j ((Function.update_of_ne hjw _ s.busy).symm.trans hj)
  | @rest w =>
    have hbusy {j} (hj : Function.update s.busy w false j = true) : s.busy j = true := by
      by_cases hjw : j = w
      · rw [hjw, Function.update_self] at hj
        cases hj
      · exact (Function.update_of_ne hjw _ s.busy).symm.trans hj
    refine ⟨h.exclusive.take .alone (fun o lock ho hold => ?_) fun lock hold => ?_,
      fun j hj => h.busy_lt j (hbusy hj), h.waits_le⟩
    · cases o with
      | alone => exact absurd rfl ho
      | pyro | track => exact hold
    · cases lock with
      | zero => exact .inl hold
      | succ j => exact .inl (hbusy hold)
  | startPyro hc _ _ => exact h.runPyro hc pyroHas_one
  | @startTrack i c hc _ _ htrack =>
    rcases startTrack_cases s c i workers marks with ⟨heq, -⟩ | heq
    · rw [heq]
      exact h.runTrack hc trackHas_zero
    · rw [heq]
      exact h.setTrack hc ⟨rfl, rfl, rfl⟩ nofun
  | wakePyro hc hp hfree => exact h.runPyro hc (.of_waiting hc hp hfree)
  | wakeTrack hc ht hfree => exact h.runTrack hc (.of_waiting hc ht hfree)

/-! ### Alone with the locks -/

variable (s) in
/-- Nobody but the holder has one of the locks from this one on. -/
def Alone (o : LockHolder) (workers lock : ℕ) : Prop :=
  ∀ j, lock ≤ j → j ≤ workers → ∀ o', s.Holds o' j → o' = o

omit [DecidableEq Scope] [DecidableEq BotCommand] [DecidableEq Handler] in
/-- A task that finds all locks free that it has yet to take. -/
theorem Orderly.alone (h : s.Orderly workers) {first : ℕ}
    (hhas : ∀ j, first ≤ j → j < lock → s.Holds o j ∨ s.locked j = false)
    (hnone : s.blockedFrom workers lock = none) : s.Alone o workers first := by
  intro j hj hle o' ho'
  by_cases hlt : j < lock
  · rcases hhas j hj hlt with ho | hfree
    · exact h.exclusive j o' o ho' ho
    · exact (not_holds_of_locked hfree ho').elim
  · exact (not_holds_of_locked (of_blockedFrom_none hnone (Nat.le_of_not_lt hlt) hle) ho').elim

omit [DecidableEq Scope] [DecidableEq BotCommand] in
theorem registered_runPyro (hr : (s.runPyro workers i c lock).registered ≠ s.registered) :
    s.blockedFrom workers lock = none := by
  rw [TrackingState.runPyro] at hr
  split at hr
  case h_1 => exact absurd rfl hr
  case h_2 hnone => exact hnone

omit [DecidableEq Handler] in
theorem blockedFrom_of_groups_ne (hg : (s.runTrack workers i c lock marks).groups ≠ s.groups) :
    s.blockedFrom workers lock = none := by
  rw [TrackingState.runTrack] at hg
  split at hg
  case h_1 => exact absurd rfl hg
  case h_2 hnone => exact hnone

/-- Handlers are added and removed by a task that is alone with the locks of the workers. -/
theorem Step.alone_of_registered (hst : Step marks workers s l s') (h : s.Orderly workers)
    (hr : s'.registered ≠ s.registered) : ∃ i, s.Alone (.pyro i) workers 1 := by
  cases hst with
  | call | work | rest => exact absurd rfl hr
  | @startPyro i => exact ⟨i, h.alone pyroHas_one (registered_runPyro hr)⟩
  | @wakePyro i c lock hc hp hfree =>
    exact ⟨i, h.alone (PyroHas.of_waiting hc hp hfree) (registered_runPyro hr)⟩
  | @startTrack i c =>
    refine absurd ?_ hr
    rcases startTrack_cases s c i workers marks with ⟨heq, -⟩ | heq
    · rw [heq, runTrack]
      split <;> rfl
    · rw [heq]
      rfl
  | wakeTrack =>
    refine absurd ?_ hr
    rw [runTrack]
    split <;> rfl

/-- Commands are collected and discarded by a task that is alone with all locks. -/
theorem Step.alone_of_groups (hst : Step marks workers s l s') (h : s.Orderly workers)
    (hg : s'.groups ≠ s.groups) : ∃ i, s.Alone (.track i) workers 0 := by
  cases hst with
  | call | work | rest => exact absurd rfl hg
  | startPyro | wakePyro => exact absurd (groups_runPyro _ _) hg
  | @startTrack i c =>
    rcases startTrack_cases s c i workers marks with ⟨heq, -⟩ | heq
    · rw [heq] at hg
      exact ⟨i, h.alone (o := .track i) (fun j _ => trackHas_zero j) (blockedFrom_of_groups_ne hg)⟩
    · rw [heq] at hg
      exact absurd rfl hg
  | @wakeTrack i c lock hc ht hfree =>
    exact ⟨i, h.alone (fun j _ => TrackHas.of_waiting hc ht hfree j) (blockedFrom_of_groups_ne hg)⟩

end TrackingState

/-! ### The runs of a client -/

namespace PublishingState

open TrackingState

variable [DecidableEq Scope] [DecidableEq BotCommand] [DecidableEq Handler]
  {marks : Handler → List (BotCommandEntry Scope BotCommand)} {workers : ℕ}
  {s s' : PublishingState Scope BotCommand Handler} {l : PublishingLabel Handler}

omit [DecidableEq Scope] [DecidableEq BotCommand] [DecidableEq Handler] in
/-- `bot_command_groups_lock` is taken, if it is free, or released. -/
theorem orderly_pushing {t : TrackingState Scope BotCommand Handler}
    (h : s.toTrackingState.Orderly workers) (hcalls : t.calls = s.calls) (hbusy : t.busy = s.busy)
    (hpushing : t.pushing = true → s.pushing = true ∨ s.locked 0 = false) : t.Orderly workers where
  exclusive := by
    refine h.exclusive.take .alone (fun o lock ho hold => ?_) fun lock hold => ?_
    · cases o with
      | alone => exact absurd rfl ho
      | pyro | track =>
        rw [Holds, hcalls] at hold
        exact hold
    · cases lock with
      | zero => exact hpushing hold
      | succ w =>
        rw [Holds, hbusy] at hold
        exact .inl hold
  busy_lt := hbusy ▸ h.busy_lt
  waits_le := hcalls ▸ h.waits_le

theorem Step.orderly (hst : Step marks workers s l s') (h : s.toTrackingState.Orderly workers) :
    s'.toTrackingState.Orderly workers := by
  cases hst with
  | tracking hst => exact hst.orderly h
  | push hfree | stop hfree => exact orderly_pushing h rfl rfl fun _ => .inr hfree
  | answered => exact orderly_pushing h rfl rfl nofun
  | stopped => exact orderly_pushing h rfl rfl .inl

theorem orderly_of_reachable (h : (publishingLts marks workers).Reachable s) :
    s.toTrackingState.Orderly workers := by
  refine h.invariant (fun s hs => ?_) fun s l s' hi _ hst => Step.orderly hst hi
  obtain rfl : s = {} := hs
  have hnone o lock : ¬({} : TrackingState Scope BotCommand Handler).Holds o lock := by
    rcases o with _ | i | i
    · cases lock <;> exact Bool.false_ne_true
    · exact fun ⟨c, k, hc, _⟩ => nomatch hc
    · exact fun ⟨c, k, hc, _⟩ => nomatch hc
  exact ⟨fun lock o o' ho _ => (hnone o lock ho).elim, nofun, fun c hc => nomatch hc⟩

/-- While a worker is at work, no step adds or removes a handler, and none but a prune changes
    what is collected. -/
theorem Step.of_busy (h : (publishingLts marks workers).Reachable s)
    (hst : Step marks workers s l s') {worker : ℕ} (hbusy : s.busy worker = true) :
    s'.registered = s.registered ∧ (s'.groups = s.groups ∨ l = .push ∨ l = .stopped) := by
  have hs := orderly_of_reachable h
  have hle : worker + 1 ≤ workers := hs.busy_lt worker hbusy
  cases hst with
  | push => exact ⟨rfl, .inr (.inl rfl)⟩
  | stopped => exact ⟨rfl, .inr (.inr rfl)⟩
  | stop | answered => exact ⟨rfl, .inl rfl⟩
  | tracking hst =>
    refine ⟨by_contra fun hr => ?_, .inl (by_contra fun hg => ?_)⟩
    · obtain ⟨i, hi⟩ := hst.alone_of_registered hs hr
      exact nomatch hi (worker + 1) (Nat.le_add_left 1 worker) hle .alone hbusy
    · obtain ⟨i, hi⟩ := hst.alone_of_groups hs hg
      exact nomatch hi (worker + 1) (Nat.zero_le _) hle .alone hbusy

/-- While commands are being sent or deleted, no step changes what is collected, but the prune
    with which `stop` ends. -/
theorem Step.of_pushing (h : (publishingLts marks workers).Reachable s)
    (hst : Step marks workers s l s') (hpushing : s.pushing = true) :
    s'.groups = s.groups ∨ l = .stopped := by
  have hs := orderly_of_reachable h
  cases hst with
  | push hfree => exact (not_holds_of_locked (o := .alone) hfree hpushing).elim
  | stopped => exact .inr rfl
  | stop | answered => exact .inl rfl
  | tracking hst =>
    refine .inl (by_contra fun hg => ?_)
    obtain ⟨i, hi⟩ := hst.alone_of_groups hs hg
    exact nomatch hi 0 (Nat.le_refl 0) (Nat.zero_le workers) .alone hpushing

/-- What a worker at work, and what `push_bot_commands` and `remove_bot_commands`, see: from the
    time a worker takes its lock to the time it releases it, the handlers registered stay the
    same, whatever calls of `add_handler` and `remove_handler` are made; and from the time the
    calls to Telegram are made to the time they are answered, so do the commands collected, unless
    `stop` comes to its last prune. -/
theorem client_still (h : (publishingLts marks workers).Reachable s) :
    (∀ worker, (publishingLts marks workers).RunUnder (fun s _ => s.busy worker = true) s s' →
      s'.registered = s.registered) ∧
    ((publishingLts marks workers).RunUnder (fun s l => s.pushing = true ∧ l ≠ .stopped) s s' →
      s'.groups = s.groups) := by
  constructor
  · intro worker hr
    induction hr with
    | refl => rfl
    | tail hr hbusy hst ih =>
      exact (Step.of_busy (h.run (hr.mono fun _ _ _ => trivial)) hst hbusy).1.trans ih
  · intro hr
    induction hr with
    | refl => rfl
    | tail hr hpushing hst ih =>
      have hstep := Step.of_pushing (h.run (hr.mono fun _ _ _ => trivial)) hst hpushing.1
      exact (hstep.resolve_right hpushing.2).trans ih

end PublishingState

/-- A worker takes its lock, and the handler is removed meanwhile: Pyrogram's task waits for the
    worker, which still sees the handler. -/
theorem client_still_start : ∃ s s' : PublishingState Unit String Unit,
    s.busy 0 = true ∧ s'.calls.map TrackedCall.pyro = [.done, .waiting 1] ∧
      s'.registered = s.registered := by
  have h := reachable_startState.reachable.tail (l := PublishingLabel.tracking (.work 0)) trivial
    (.tracking (.work Nat.one_pos rfl))
  have hstarted : ∀ c ∈ [(⟨true, (), 0, .done, .done⟩ : TrackedCall Unit)],
      c.pyro ≠ .created ∧ c.track ≠ .created := fun c hc => by
    obtain rfl := List.mem_singleton.1 hc
    exact ⟨PyroTask.noConfusion, TrackTask.noConfusion⟩
  have hr := Lts.RunUnder.refl (T := publishingLts startMarks 1)
    (P := fun s _ => s.busy 0 = true)
    (s := { startState with busy := Function.update startState.busy 0 true })
  have hr₁ := hr.tail (l := PublishingLabel.tracking (.call false () 0)) rfl
    (.tracking (.call false () 0))
  have hr₂ := hr₁.tail (l := PublishingLabel.tracking (.startPyro 1)) rfl
    (.tracking (.startPyro rfl hstarted rfl))
  exact ⟨_, _, rfl, rfl, (PublishingState.client_still h).1 0 hr₂⟩

end Pyroflow
