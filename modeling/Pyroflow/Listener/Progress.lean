import Mathlib.Algebra.BigOperators.Group.Finset.Basic
import Mathlib.Algebra.Order.BigOperators.Group.Finset
import Mathlib.Data.Set.Finite.Lattice
import Pyroflow.Coordinator.Memory
import Pyroflow.Coordinator.Redis
import Pyroflow.Lib.Rest
import Pyroflow.Listener.Invariant
import Pyroflow.Listener.Runs

/-!
# Listeners come to rest

What becomes of the calls on the listeners when no more of them start, no timer fires, no task
is cancelled and no coordinator is stopped (`Label.GoesOn`): whatever the hooks answer, and in
whatever order the calls go on, they come to rest (`listeners_come_to_rest`). Then no chat lock
is taken, every call of `resolve` and of `cancel` has ended, and so has every call of `listen`
but those that wait for an update that has not come (`State.AtRest`).

So the calls do not get stuck at each other's locks, however they got where they are. A call
holds one chat lock at most, and waits for none while it does; one that holds a lock can always
go on.
-/

namespace Pyroflow

variable {Sess : Type} {C : ListenerCoordinator Sess} {Update Metadata : Type}

/-! ### What goes on -/

/-- The events of a call of `listen` but for its interruptions. -/
def ListenEvent.GoesOn : ListenEvent → Prop
  | .timer | .interrupt => False
  | _ => True

/-- What the hooks of a call of `resolve` answer, each being asked once at most; `none` when it
    raises. -/
structure HookAnswers where
  listenable : Option Bool
  key : Option ListenerKey
  bypass : Option Bool

/-- The events of a call of `resolve` whose hooks answer so, but for its interruption. -/
def ResolveEvent.GoesOn (answers : HookAnswers) : ResolveEvent → Prop
  | .listenable answer => answer = answers.listenable
  | .key answer => answer = answers.key
  | .bypass answer => answer = answers.bypass
  | .interrupt => False
  | _ => True

def CancelEvent.GoesOn : CancelEvent → Prop
  | .interrupt => False
  | _ => True

/-- The steps of the calls that have started. -/
def Label.GoesOn (answers : CallId → HookAnswers) : Label C Update Metadata → Prop
  | .listen _ e => e.GoesOn
  | .resolve r e => e.GoesOn (answers r)
  | .cancel _ e => e.GoesOn
  | _ => False

variable (C) in
/-- The coordinator responds as long as it has issued finitely many tokens: a call of `register`
    returns or raises. -/
structure ListenerCoordinator.Responds : Prop where
  registers : ∀ {b} (σ : Sess) (k : ListenerKey), (C.view b).issued.Finite →
    (∃ t b', C.Registers b σ k t b') ∨ C.RegisterFails b σ k
  stop : ∀ {b} (σ : Sess), (C.view b).issued.Finite → (C.view (C.stop b σ)).issued.Finite

theorem memoryCoordinator_responds : memoryCoordinator.Responds where
  registers {m} _ k _ := by
    cases h : m.register k with
    | none => exact .inr h
    | some p => exact .inl ⟨p.1, p.2, h⟩
  stop {_} _ _ := Set.finite_empty.subset fun n h => absurd h (Nat.not_lt_zero n)

/-- There are always uuids left to draw. -/
theorem redisCoordinator_responds {Token : Type} [DecidableEq Sess] [DecidableEq Token]
    [Infinite Token] : (redisCoordinator Sess Token).Responds where
  registers {r} σ k h := by
    have hdrawn : r.drawn.Finite := h
    obtain ⟨uuid, huuid⟩ := hdrawn.exists_notMem
    cases hr : r.register σ k uuid huuid with
    | none => exact .inr ⟨uuid, huuid, hr⟩
    | some r' => exact .inl ⟨uuid, r', huuid, hr⟩
  stop {_} _ h := h

/-! ### How far it is -/

/-- The steps a call of `listen` has left, at most. -/
def ListenPc.toGo {Token : Type} : ListenPc Token Update → ℕ
  | .waitLock => 9
  | .lookup => 8
  | .looked _ => 7
  | .replacing => 6
  | .registering => 5
  | .registered _ => 4
  | .waiting .. => 3
  | .finalizing .. => 2
  | .unregistering .. => 1
  | .ended .. => 0

/-- The steps a call of `resolve` has left, at most: a candidate takes three, and there are four
    candidates. -/
def ResolvePc.toGo {Token : Type} : ResolvePc Token Update Metadata → ℕ
  | .listenable => 17
  | .extracting => 16
  | .waitLock key => 3 * key.subKeys.length + 3
  | .scanning _ subs => 3 * subs.length + 2
  | .checking _ _ _ subs => 3 * subs.length + 4
  | .checked _ _ _ subs _ => 3 * subs.length + 3
  | .bypassing .. => 2
  | .bypassed .. => 1
  | .unresolved _ => 1
  | .ended _ => 0

/-- The steps a call of `cancel` has left, at most. -/
def CancelPc.toGo : CancelPc Update → ℕ
  | .waitLock => 3
  | .cancelling => 2
  | .coordinator => 1
  | .ended _ => 0

/-- The done-callback of a call has yet to be scheduled, or yet to be run. -/
def Shared.callbackToGo (m : Shared C Update Metadata) (c : CallId) : ℕ :=
  match m.futures c with
  | .pending => 2
  | _ => (m.callbacks c).toNat

namespace State

variable (s : State C Update Metadata)

/-- The steps the calls and the done-callback of a number have left. -/
def toGo (c : CallId) : ℕ :=
  (s.listens c).elim 0 (·.pc.toGo) + (s.resolves c).elim 0 (·.pc.toGo) +
    (s.cancels c).elim 0 (·.pc.toGo) + s.shared.callbackToGo c

/-- The calls started have numbers less than `n`. -/
def Bounded (n : ℕ) : Prop :=
  ∀ c, n ≤ c → s.listens c = none ∧ s.resolves c = none ∧ s.cancels c = none

end State

theorem length_subKeys_le (key : ListenerKey) : key.subKeys.length ≤ 4 := by
  have hplan : (getPlan key.mask).length ≤ 4 := by
    rw [ListenerKey.mask]
    cases key.userId.isSome <;> cases key.messageId.isSome <;> decide
  rw [ListenerKey.subKeys, List.length_map]
  exact (List.takeWhile_sublist _).length_le.trans hplan

/-! ### The done-callbacks -/

namespace Shared

variable {m m' m'' : Shared C Update Metadata} {c : CallId}

/-- A done future stays as it is, and no done-callback is scheduled for it again. -/
def KeepsDone (m m' : Shared C Update Metadata) : Prop :=
  ∀ c, m.futures c ≠ .pending →
    m'.futures c = m.futures c ∧ (m'.callbacks c = true → m.callbacks c = true)

theorem KeepsDone.of_eq (hf : m'.futures = m.futures) (hc : m'.callbacks = m.callbacks) :
    m.KeepsDone m' := fun c _ => ⟨congrFun hf c, fun h => hc ▸ h⟩

theorem KeepsDone.trans (h : m.KeepsDone m') (h' : m'.KeepsDone m'') : m.KeepsDone m'' := by
  intro c hc
  obtain ⟨hf, hcall⟩ := h c hc
  obtain ⟨hf', hcall'⟩ := h' c (hf ▸ hc)
  exact ⟨hf'.trans hf, hcall ∘ hcall'⟩

theorem keepsDone_complete {f : Future Update} (hc : m.futures c = .pending) :
    m.KeepsDone (m.complete c f) := by
  intro c' hc'
  have hne : c' ≠ c := by
    rintro rfl
    exact hc' hc
  rw [complete_futures, complete_callbacks, Function.update_of_ne hne, Function.update_of_ne hne]
  exact ⟨rfl, id⟩

theorem keepsDone_failWaiter {o : Outcome Update Update} : m.KeepsDone (m.failWaiter c o) := by
  rcases m.failWaiter_eq c o with h | ⟨hp, _, h⟩
  · rw [h]
    exact .of_eq rfl rfl
  · rw [h]
    exact keepsDone_complete hp

theorem keepsDone_cancelFuture : m.KeepsDone (m.cancelFuture c) := by
  rcases m.cancelFuture_eq c with ⟨_, h⟩ | ⟨hp, h⟩
  · rw [h]
    exact .of_eq rfl rfl
  · rw [h]
    exact keepsDone_complete hp

variable [DecidableEq Sess] {σ : Sess} {key : ListenerKey}

theorem cleanupListen_callbacks : (m.cleanupListen σ key c).callbacks = m.callbacks := by
  rcases m.cleanupListen_eq σ key c with ⟨h, _⟩ | ⟨h, _⟩ <;> rw [h]
  rfl

theorem keepsDone_cleanupListen : m.KeepsDone (m.cleanupListen σ key c) :=
  .of_eq cleanupListen_futures cleanupListen_callbacks

theorem keepsDone_cancel {dup : Bool} {cid : Option C.Token} :
    m.KeepsDone (m.cancel σ key dup cid).1 := by
  rcases m.cancel_cases σ key dup cid with
    ⟨_, h⟩ | ⟨l, _, ⟨_, _, h⟩ | ⟨_, ⟨_, h⟩ | ⟨hp, h⟩⟩⟩
  · rw [h]
    exact .of_eq rfl rfl
  · rw [h]
    exact .of_eq rfl rfl
  · rw [h]
    exact .of_eq rfl rfl
  · rw [h]
    exact KeepsDone.trans (.of_eq rfl rfl) (keepsDone_complete (m := m.setListener σ key none) hp)

/-- Without a token, `_cancel` takes the listener for the one meant. -/
theorem cancel_none_ne_stale {dup : Bool} : (m.cancel σ key dup none).2 ≠ .stale := by
  rcases m.cancel_cases σ key dup none with
    ⟨_, h⟩ | ⟨l, _, ⟨hne, _⟩ | ⟨_, ⟨_, h⟩ | ⟨_, h⟩⟩⟩
  · rw [h]
    exact nofun
  · exact absurd rfl hne
  · rw [h]
    exact nofun
  · rw [h]
    exact nofun

omit [DecidableEq Sess] in
theorem KeepsDone.callbackToGo_le (h : m.KeepsDone m') (c : CallId) :
    m'.callbackToGo c ≤ m.callbackToGo c := by
  by_cases hc : m.futures c = .pending
  · rw [callbackToGo, callbackToGo, hc]
    split
    · exact le_rfl
    · exact (Bool.toNat_le _).trans (by decide)
  · obtain ⟨hf, hcall⟩ := h c hc
    rw [callbackToGo, callbackToGo, hf]
    split
    · exact le_rfl
    · cases hm' : m'.callbacks c with
      | false => exact Nat.zero_le _
      | true => rw [hcall hm']

variable (σ key) in
/-- Once the done-callback is run, it need not be any more. -/
theorem callbackToGo_callback_lt (hc : m.callbacks c = true) (hf : m.futures c ≠ .pending) :
    (m.callback σ key c).callbackToGo c < m.callbackToGo c := by
  rw [callbackToGo, callbackToGo, callback, cleanupListen_futures]
  dsimp only
  split
  · exact absurd ‹_› hf
  · rw [Function.update_self, hc]
    exact Nat.zero_lt_one

theorem callbackToGo_callback_of_ne {c' : CallId} (hne : c' ≠ c) :
    (m.callback σ key c).callbackToGo c' = m.callbackToGo c' := by
  rw [callbackToGo, callbackToGo, callback, cleanupListen_futures]
  dsimp only
  rw [Function.update_of_ne hne]

end Shared

section Steps

variable [DecidableEq Sess] {m m' : Shared C Update Metadata} {a : Mutex.Action ℤ}

/-- Going on, a call of `listen` comes nearer to its end, or its done-callback is run. -/
theorem ListenCall.Step.toGo {c : CallId} {call : ListenCall C Update Metadata} {e : ListenEvent}
    {pc : ListenPc C.Token Update} (h : call.Step c m e a m' pc) (he : e.GoesOn) :
    pc.toGo < call.pc.toGo ∨
      pc = call.pc ∧ m.callbacks c = true ∧ m' = m.callback call.session call.key c := by
  cases h with
  | callback scheduled => exact .inr ⟨rfl, scheduled, rfl⟩
  | timer | interruptWait | interruptLock | interruptFinally => exact he.elim
  | _ pc => exact .inl (by rw [pc]; simp [ListenPc.toGo])

theorem ResolveCall.Step.toGo {r : CallId} {call : ResolveCall C Update Metadata}
    {e : ResolveEvent} {pc : ResolvePc C.Token Update Metadata} {answers : HookAnswers}
    (h : call.Step r m e a m' pc) (he : e.GoesOn answers) : pc.toGo < call.pc.toGo := by
  cases h with
  | interrupt | interruptBypass => exact he.elim
  | @key key pc =>
    have := length_subKeys_le key
    rw [pc, ResolvePc.toGo, ResolvePc.toGo]
    omega
  | _ pc => rw [pc]; simp [ResolvePc.toGo, Nat.mul_succ]

theorem CancelCall.Step.toGo {call : CancelCall C Update} {e : CancelEvent} {pc : CancelPc Update}
    (h : call.Step m e a m' pc) (he : e.GoesOn) : pc.toGo < call.pc.toGo := by
  cases h with
  | interrupt => exact he.elim
  | _ pc => rw [pc]; simp [CancelPc.toGo]

/-- What is done stays, but that the done-callback of a call is run. -/
theorem ListenCall.Step.keepsDone {c : CallId} {call : ListenCall C Update Metadata}
    {e : ListenEvent} {pc : ListenPc C.Token Update} (h : call.Step c m e a m' pc)
    (hpc : pc ≠ call.pc) : m.KeepsDone m' := by
  cases h with
  | callback => exact absurd rfl hpc
  | replace | replaceInvalid => exact Shared.keepsDone_cancel
  | timer | interruptWait => exact Shared.keepsDone_cancelFuture
  | wake => exact Shared.keepsDone_failWaiter.trans Shared.keepsDone_cleanupListen
  | _ => exact .of_eq rfl rfl

theorem ResolveCall.Step.keepsDone {r : CallId} {call : ResolveCall C Update Metadata}
    {e : ResolveEvent} {pc : ResolvePc C.Token Update Metadata} (h : call.Step r m e a m' pc) :
    m.KeepsDone m' := by
  cases h with
  | superseded | supersededInvalid | bypass | bypassStale | bypassInvalid =>
    exact Shared.keepsDone_cancel
  | deliver _ pending => exact Shared.keepsDone_complete pending
  | _ => exact .of_eq rfl rfl

theorem CancelCall.Step.keepsDone {call : CancelCall C Update} {e : CancelEvent}
    {pc : CancelPc Update} (h : call.Step m e a m' pc) : m.KeepsDone m' := by
  cases h with
  | stale | invalid | onlyLocal | proceed => exact Shared.keepsDone_cancel
  | _ => exact .of_eq rfl rfl

end Steps

/-! ### The steps of the system -/

variable [DecidableEq Sess] {s s' : State C Update Metadata} {l : Label C Update Metadata} {n : ℕ}
  {answers : CallId → HookAnswers}

/-- Only calls that have started go on. -/
theorem Step.bounded (h : Step s l s') (hg : l.GoesOn answers) (hb : s.Bounded n) :
    s'.Bounded n := by
  intro c hc
  obtain ⟨hl, hr, hx⟩ := hb c hc
  cases h with
  | @listen c₁ _ _ _ _ _ running =>
    have hne : c ≠ c₁ := by
      rintro rfl
      exact absurd (hl.symm.trans running) nofun
    exact ⟨(Function.update_of_ne hne ..).trans hl, hr, hx⟩
  | @resolve r₁ _ _ _ _ _ running =>
    have hne : c ≠ r₁ := by
      rintro rfl
      exact absurd (hr.symm.trans running) nofun
    exact ⟨hl, (Function.update_of_ne hne ..).trans hr, hx⟩
  | @cancel x₁ _ _ _ _ _ running =>
    have hne : c ≠ x₁ := by
      rintro rfl
      exact absurd (hx.symm.trans running) nofun
    exact ⟨hl, hr, (Function.update_of_ne hne ..).trans hx⟩
  | _ => exact hg.elim

/-- Going on, a call that has started has less left, and no other has more. -/
theorem Step.toGo (h : Step s l s') (hg : l.GoesOn answers) (ht : s.Timely) :
    ∃ c, (s.listens c ≠ none ∨ s.resolves c ≠ none ∨ s.cancels c ≠ none) ∧
      s'.toGo c < s.toGo c ∧ ∀ c', s'.toGo c' ≤ s.toGo c' := by
  cases h with
  | @listen c call e a m pc running step =>
    refine ⟨c, .inl (running ▸ nofun), ?_⟩
    rcases step.toGo hg with hlt | ⟨rfl, hc, rfl⟩
    · have hk := (step.keepsDone fun h => absurd (h ▸ hlt) (lt_irrefl _)).callbackToGo_le
      refine ⟨?_, fun c' => ?_⟩
      · have := hk c
        simp only [State.toGo, Function.update_self, running, Option.elim_some]
        omega
      · have := hk c'
        by_cases hne : c' = c
        · subst hne
          simp only [State.toGo, Function.update_self, running, Option.elim_some]
          omega
        · simp only [State.toGo, Function.update_of_ne hne]
          omega
    · have hlt := Shared.callbackToGo_callback_lt call.session call.key hc
        (ht.scheduled c hc)
      refine ⟨?_, fun c' => ?_⟩
      · simp only [State.toGo, Function.update_self, running, Option.elim_some]
        omega
      · by_cases hne : c' = c
        · subst hne
          simp only [State.toGo, Function.update_self, running, Option.elim_some]
          omega
        · simp only [State.toGo, Function.update_of_ne hne, Shared.callbackToGo_callback_of_ne hne]
          exact le_rfl
  | @resolve r call e a m pc running step =>
    have hk := step.keepsDone.callbackToGo_le
    have hlt := step.toGo hg
    refine ⟨r, .inr (.inl (running ▸ nofun)), ?_, fun r' => ?_⟩
    · have := hk r
      simp only [State.toGo, Function.update_self, running, Option.elim_some]
      omega
    · have := hk r'
      by_cases hne : r' = r
      · subst hne
        simp only [State.toGo, Function.update_self, running, Option.elim_some]
        omega
      · simp only [State.toGo, Function.update_of_ne hne]
        omega
  | @cancel x call e a m pc running step =>
    have hk := step.keepsDone.callbackToGo_le
    have hlt := step.toGo hg
    refine ⟨x, .inr (.inr (running ▸ nofun)), ?_, fun x' => ?_⟩
    · have := hk x
      simp only [State.toGo, Function.update_self, running, Option.elim_some]
      omega
    · have := hk x'
      by_cases hne : x' = x
      · subst hne
        simp only [State.toGo, Function.update_self, running, Option.elim_some]
        omega
      · simp only [State.toGo, Function.update_of_ne hne]
        omega
  | _ => exact hg.elim

/-! ### What is bounded -/

variable {P : State C Update Metadata → Label C Update Metadata → Prop}

/-- In a reachable state, finitely many calls have started. -/
theorem exists_bounded_of_reachable (h : (listenerLts C Update Metadata).ReachableUnder P s) :
    ∃ n, s.Bounded n := by
  refine h.invariant (I := fun s => ∃ n, s.Bounded n) ?_ ?_
  · rintro _ rfl
    exact ⟨0, fun _ _ => ⟨rfl, rfl, rfl⟩⟩
  · rintro s l s' ⟨n, hb⟩ - hst
    have hsame : ∃ N, ∀ c, N ≤ c → s'.listens c = s.listens c ∧ s'.resolves c = s.resolves c ∧
        s'.cancels c = s.cancels c := by
      cases hst with
      | @startListen c | @listen c =>
        exact ⟨c + 1, fun c' hc => ⟨Function.update_of_ne (Nat.ne_of_gt hc) .., rfl, rfl⟩⟩
      | @startResolve r | @resolve r =>
        exact ⟨r + 1, fun r' hr => ⟨rfl, Function.update_of_ne (Nat.ne_of_gt hr) .., rfl⟩⟩
      | @startCancel x | @signal x | @cancel x =>
        exact ⟨x + 1, fun x' hx => ⟨rfl, rfl, Function.update_of_ne (Nat.ne_of_gt hx) ..⟩⟩
      | stop => exact ⟨0, fun _ _ => ⟨rfl, rfl, rfl⟩⟩
    obtain ⟨N, hN⟩ := hsame
    refine ⟨max n N, fun c hc => ?_⟩
    obtain ⟨hl, hr, hx⟩ := hN c ((le_max_right n N).trans hc)
    rw [hl, hr, hx]
    exact hb c ((le_max_left n N).trans hc)

/-- A step of a coordinator issues one token at most. -/
theorem Step.issued_finite (hC : C.Responds) (h : Step s l s')
    (hf : (C.view s.shared.backend).issued.Finite) : (C.view s'.shared.backend).issued.Finite := by
  have hcancel : ∀ {b} (σ : Sess) (k : ListenerKey), (C.view b).issued.Finite →
      (C.view (C.cancel b σ k).2).issued.Finite := fun σ k hb => by
    rw [C.cancel_view]
    exact hb
  cases h with
  | listen running step =>
    cases step with
    | replace | replaceInvalid => rwa [Shared.cancel_backend]
    | replaced => exact hcancel _ _ hf
    | register _ reg =>
      obtain ⟨_, hv⟩ := C.register_view reg
      rw [Shared.setBackend_backend, hv]
      exact hf.insert _
    | timer | interruptWait => rwa [Shared.cancelFuture_backend]
    | wake => rwa [Shared.cleanupListen_backend, Shared.failWaiter_backend]
    | @unregister t =>
      rw [Shared.setBackend_backend, C.unregister_view, TokenRegistry.withdraw]
      split <;> exact hf
    | callback => rwa [Shared.callback, Shared.cleanupListen_backend]
    | _ => exact hf
  | resolve running step =>
    cases step with
    | superseded | supersededInvalid | bypass | bypassStale | bypassInvalid =>
      rwa [Shared.cancel_backend]
    | bypassed => exact hcancel _ _ hf
    | _ => exact hf
  | cancel running step =>
    cases step with
    | stale | invalid | onlyLocal | proceed => rwa [Shared.cancel_backend]
    | coordinator => exact hcancel _ _ hf
    | _ => exact hf
  | stop => exact hC.stop _ hf
  | _ => exact hf

/-- In a reachable state, finitely many tokens have been issued. -/
theorem issued_finite_of_reachable (hC : C.Responds)
    (h : (listenerLts C Update Metadata).ReachableUnder P s) :
    (C.view s.shared.backend).issued.Finite := by
  refine h.invariant (I := fun s => (C.view s.shared.backend).issued.Finite) ?_
    fun _ _ _ hf _ hst => hst.issued_finite hC hf
  rintro _ rfl
  change (C.view C.init).issued.Finite
  rw [C.view_init]
  exact Set.finite_empty

/-! ### Going on -/

/-- A call of `listen` that has not ended and does not wait for its future goes on. -/
theorem ListenCall.exists_goesOn {m : Shared C Update Metadata} {c : CallId}
    {call : ListenCall C Update Metadata} (hC : C.Responds)
    (hf : (C.view m.backend).issued.Finite) (hend : ∀ t o, call.pc ≠ .ended t o)
    (hwait : ∀ t, call.pc = .waiting t .none → m.futures c ≠ .pending) :
    ∃ e a m' pc, call.Step c m e a m' pc ∧ e.GoesOn := by
  cases h : call.pc with
  | waitLock => exact ⟨_, _, _, _, .lock h, trivial⟩
  | lookup => exact ⟨_, _, _, _, .lookup h, trivial⟩
  | looked b =>
    cases b with
    | true =>
      cases hp : call.policy with
      | reject => exact ⟨_, _, _, _, .reject h hp, trivial⟩
      | replace =>
        cases hh : (m.cancel call.session call.key true none).2 with
        | proceed => exact ⟨_, _, _, _, .replace h hp hh, trivial⟩
        | invalid => exact ⟨_, _, _, _, .replaceInvalid h hp hh, trivial⟩
        | stale => exact absurd hh (Shared.cancel_none_ne_stale)
    | false =>
      by_cases hl : m.listeners call.session call.key = none
      · exact ⟨_, _, _, _, .proceed h hl, trivial⟩
      · exact ⟨_, _, _, _, .outOfSync h hl, trivial⟩
  | replacing => exact ⟨_, _, _, _, .replaced h, trivial⟩
  | registering =>
    rcases hC.registers call.session call.key hf with ⟨t, b, hr⟩ | hr
    · exact ⟨_, _, _, _, .register h hr, trivial⟩
    · exact ⟨_, _, _, _, .registerFails h hr, trivial⟩
  | registered t => exact ⟨_, _, _, _, .store h, trivial⟩
  | waiting t i =>
    refine ⟨_, _, _, _, .wake h ?_, trivial⟩
    by_cases hi : i = .none
    · exact .inr (hwait t (hi ▸ h))
    · exact .inl hi
  | finalizing t o => exact ⟨_, _, _, _, .relock h, trivial⟩
  | unregistering t o => exact ⟨_, _, _, _, .unregister h, trivial⟩
  | ended t o => exact absurd h (hend t o)

/-- A call of `resolve` that has not ended goes on. -/
theorem ResolveCall.exists_goesOn {m : Shared C Update Metadata} {r : CallId}
    {call : ResolveCall C Update Metadata} (answers : HookAnswers)
    (hend : ∀ o, call.pc ≠ .ended o) :
    ∃ e a m' pc, call.Step r m e a m' pc ∧ e.GoesOn answers := by
  cases h : call.pc with
  | listenable =>
    cases ha : answers.listenable with
    | none => exact ⟨_, _, _, _, .listenableRaises h, ha.symm⟩
    | some b =>
      cases b with
      | true => exact ⟨_, _, _, _, .listenable h, ha.symm⟩
      | false => exact ⟨_, _, _, _, .notListenable h, ha.symm⟩
  | extracting =>
    cases ha : answers.key with
    | none => exact ⟨_, _, _, _, .keyRaises h, ha.symm⟩
    | some key =>
      by_cases hl : m.listeners call.session = fun _ => none
      · exact ⟨_, _, _, _, .noListeners h hl, ha.symm⟩
      · exact ⟨_, _, _, _, .key h hl, ha.symm⟩
  | waitLock key => exact ⟨_, _, _, _, .lock h, trivial⟩
  | scanning key subs =>
    cases subs with
    | nil => exact ⟨_, _, _, _, .scanned h, trivial⟩
    | cons sub subs =>
      cases hl : m.listeners call.session sub with
      | none => exact ⟨_, _, _, _, .scanNone h hl, trivial⟩
      | some listener => exact ⟨_, _, _, _, .scan h hl, trivial⟩
  | checking key sub listener subs => exact ⟨_, _, _, _, .check h, trivial⟩
  | checked key sub listener subs b =>
    cases b with
    | true => exact ⟨_, _, _, _, .owned h, trivial⟩
    | false =>
      by_cases hh : (m.cancel call.session sub false listener.coordinatorId).2 = .invalid
      · exact ⟨_, _, _, _, .supersededInvalid h hh, trivial⟩
      · exact ⟨_, _, _, _, .superseded h hh, trivial⟩
  | bypassing key sub listener =>
    cases ha : answers.bypass with
    | none => exact ⟨_, _, _, _, .bypassRaises h, ha.symm⟩
    | some b =>
      cases b with
      | true =>
        cases hh : (m.cancel call.session sub false listener.coordinatorId).2 with
        | stale => exact ⟨_, _, _, _, .bypassStale h hh, ha.symm⟩
        | invalid => exact ⟨_, _, _, _, .bypassInvalid h hh, ha.symm⟩
        | proceed => exact ⟨_, _, _, _, .bypass h hh, ha.symm⟩
      | false =>
        by_cases hp : m.futures listener.future = .pending
        · exact ⟨_, _, _, _, .deliver h hp, ha.symm⟩
        · exact ⟨_, _, _, _, .deliverInvalid h hp, ha.symm⟩
  | bypassed key sub => exact ⟨_, _, _, _, .bypassed h, trivial⟩
  | unresolved key => exact ⟨_, _, _, _, .unresolved h, trivial⟩
  | ended o => exact absurd h (hend o)

/-- A call of `cancel` that has not ended goes on. -/
theorem CancelCall.exists_goesOn {m : Shared C Update Metadata} {call : CancelCall C Update}
    (hend : ∀ o, call.pc ≠ .ended o) : ∃ e a m' pc, call.Step m e a m' pc ∧ e.GoesOn := by
  cases h : call.pc with
  | waitLock => exact ⟨_, _, _, _, .lock h, trivial⟩
  | cancelling =>
    cases hh : (m.cancel call.session call.key call.isDuplicate call.coordinatorId).2 with
    | stale => exact ⟨_, _, _, _, .stale h hh, trivial⟩
    | invalid => exact ⟨_, _, _, _, .invalid h hh, trivial⟩
    | proceed =>
      cases hc : call.cancelCoordinator with
      | true => exact ⟨_, _, _, _, .proceed h hc hh, trivial⟩
      | false => exact ⟨_, _, _, _, .onlyLocal h hc hh, trivial⟩
  | coordinator => exact ⟨_, _, _, _, .coordinator h, trivial⟩
  | ended o => exact absurd h (hend o)

/-- The calls are at rest: no chat lock is taken, and all calls have ended, but those that wait
    for an update. No done-callback is left to be run. -/
structure State.AtRest (s : State C Update Metadata) : Prop where
  free : ∀ k, s.locked k = false
  listens : ∀ c call, s.listens c = some call → (∃ t o, call.pc = .ended t o) ∨
    ∃ t, call.pc = .waiting t .none ∧ s.shared.futures c = .pending
  resolves : ∀ r call, s.resolves r = some call → ∃ o, call.pc = .ended o
  cancels : ∀ x call, s.cancels x = some call → ∃ o, call.pc = .ended o
  callbacks : ∀ c, s.shared.callbacks c = false

section GoesOn

variable (answers : CallId → HookAnswers)

theorem Step.exists_listen {c : CallId} {call : ListenCall C Update Metadata} (hC : C.Responds)
    (hf : (C.view s.shared.backend).issued.Finite) (hc : s.listens c = some call)
    (hend : ∀ t o, call.pc ≠ .ended t o)
    (hwait : ∀ t, call.pc = .waiting t .none → s.shared.futures c ≠ .pending)
    (hfree : call.holds ≠ none ∨ ∀ k, s.locked k = false) :
    ∃ s', (listenerLts C Update Metadata).StepUnder (fun _ l => l.GoesOn answers) s s' := by
  obtain ⟨e, a, m', pc, step, he⟩ := ListenCall.exists_goesOn (c := c) hC hf hend hwait
  exact ⟨_, .listen c e, he, .listen hc step (step.moves.enabled hfree)⟩

theorem Step.exists_resolve {r : CallId} {call : ResolveCall C Update Metadata}
    (hr : s.resolves r = some call) (hend : ∀ o, call.pc ≠ .ended o)
    (hfree : call.holds ≠ none ∨ ∀ k, s.locked k = false) :
    ∃ s', (listenerLts C Update Metadata).StepUnder (fun _ l => l.GoesOn answers) s s' := by
  obtain ⟨e, a, m', pc, step, he⟩ :=
    ResolveCall.exists_goesOn (m := s.shared) (r := r) (answers r) hend
  exact ⟨_, .resolve r e, he, .resolve hr step (step.moves.enabled hfree)⟩

theorem Step.exists_cancel {x : CallId} {call : CancelCall C Update} (hx : s.cancels x = some call)
    (hend : ∀ o, call.pc ≠ .ended o) (hfree : call.holds ≠ none ∨ ∀ k, s.locked k = false) :
    ∃ s', (listenerLts C Update Metadata).StepUnder (fun _ l => l.GoesOn answers) s s' := by
  obtain ⟨e, a, m', pc, step, he⟩ := CancelCall.exists_goesOn (m := s.shared) hend
  exact ⟨_, .cancel x e, he, .cancel hx step (step.moves.enabled hfree)⟩

/-- A call that holds a chat lock goes on. -/
theorem Step.exists_of_holds (hC : C.Responds) (hf : (C.view s.shared.backend).issued.Finite)
    {o : Owner} {k : ℤ} (ho : s.holds o = some k) :
    ∃ s', (listenerLts C Update Metadata).StepUnder (fun _ l => l.GoesOn answers) s s' := by
  cases o with
  | listen c =>
    obtain ⟨call, hc, hk⟩ := Option.bind_eq_some_iff.1 ho
    have hholds : call.holds ≠ none := hk ▸ nofun
    refine exists_listen answers hC hf hc (fun t o h => ?_) (fun t h => ?_) (.inl hholds)
    · exact hholds (by rw [ListenCall.holds, h])
    · exact absurd (by rw [ListenCall.holds, h]) hholds
  | resolve r =>
    obtain ⟨call, hr, hk⟩ := Option.bind_eq_some_iff.1 ho
    have hholds : call.holds ≠ none := hk ▸ nofun
    exact exists_resolve answers hr (fun o h => hholds (by rw [ResolveCall.holds, h])) (.inl hholds)
  | cancel x =>
    obtain ⟨call, hx, hk⟩ := Option.bind_eq_some_iff.1 ho
    have hholds : call.holds ≠ none := hk ▸ nofun
    exact exists_cancel answers hx (fun o h => hholds (by rw [CancelCall.holds, h])) (.inl hholds)

/-- When none of the calls can go on, they are at rest: none holds a chat lock, so that all chat
    locks are free. -/
theorem Step.atRest (hC : C.Responds)
    (h : (listenerLts C Update Metadata).ReachableUnder P s)
    (hstuck : ∀ s', ¬(listenerLts C Update Metadata).StepUnder (fun _ l => l.GoesOn answers) s s') :
    s.AtRest := by
  have hf := issued_finite_of_reachable hC h
  have hstuck :
      ¬∃ s', (listenerLts C Update Metadata).StepUnder (fun _ l => l.GoesOn answers) s s' :=
    fun ⟨s', hst⟩ => hstuck s' hst
  have hfree : ∀ k, s.locked k = false := fun k => by
    by_contra hk
    obtain ⟨o, ho⟩ := ((guards_of_reachable h).taken_iff k).1 (Bool.eq_true_of_not_eq_false hk)
    exact hstuck (exists_of_holds answers hC hf ho)
  refine ⟨hfree, fun c call hc => ?_, fun r call hr => ?_, fun x call hx => ?_, fun c => ?_⟩
  · by_contra hn
    simp only [not_or, not_exists, not_and] at hn
    exact hstuck (exists_listen answers hC hf hc (fun t o h => hn.1 t o h) hn.2 (.inr hfree))
  · by_contra hn
    exact hstuck (exists_resolve answers hr (fun o h => hn ⟨o, h⟩) (.inr hfree))
  · by_contra hn
    exact hstuck (exists_cancel answers hx (fun o h => hn ⟨o, h⟩) (.inr hfree))
  · by_contra hc
    -- The done-callback is that of a call.
    have hc := Bool.eq_true_of_not_eq_false hc
    cases hl : s.listens c with
    | none =>
      refine (timely_of_reachable h).scheduled c hc ((timely_of_reachable h).pending c ?_)
      exact fun call hcall => absurd (hl.symm.trans hcall) nofun
    | some call => exact hstuck ⟨_, .listen c .callback, trivial, .listen hl (.callback hc) trivial⟩

end GoesOn

/-- The calls on the listeners of some sessions come to rest, when no more of them start, no
    timer fires and no task is cancelled. -/
theorem listeners_come_to_rest (hC : C.Responds) (answers : CallId → HookAnswers)
    (h : (listenerLts C Update Metadata).Reachable s) :
    (listenerLts C Update Metadata).ComesToRest (fun _ l => l.GoesOn answers) State.AtRest s := by
  obtain ⟨n, hn⟩ := exists_bounded_of_reachable h
  refine Lts.ComesToRest.of_measure
    (I := fun s => (listenerLts C Update Metadata).Reachable s ∧ s.Bounded n)
    (fun s => ∑ c ∈ Finset.range n, s.toGo c) ⟨h, hn⟩ ?_ ?_ ?_
  · rintro s s' ⟨hr, hb⟩ ⟨l, hg, hst⟩
    exact ⟨hr.tail trivial hst, hst.bounded hg hb⟩
  · rintro s s' ⟨hr, hb⟩ ⟨l, hg, hst⟩
    obtain ⟨c, hstarted, hlt, hle⟩ := hst.toGo hg (timely_of_reachable hr)
    refine Finset.sum_lt_sum (fun c' _ => hle c') ⟨c, Finset.mem_range.2 ?_, hlt⟩
    by_contra hge
    obtain ⟨hl, hr, hx⟩ := hb c (not_lt.1 hge)
    simp [hl, hr, hx] at hstarted
  · rintro s ⟨hr, -⟩ hstuck
    exact Step.atRest answers hC hr hstuck

/-- A call of `resolve` holds the chat lock, in its last hook, and a call of `cancel` waits for the
    lock. -/
theorem listeners_come_to_rest_locked : ∃ s : State memoryCoordinator String Unit,
    s.locked 100 = true ∧ (∃ call, s.cancels 0 = some call ∧ call.pc = .waitLock) ∧
      (listenerLts memoryCoordinator String Unit).ComesToRest
        (fun _ l => l.GoesOn fun _ => ⟨some true, some ⟨100, none, none⟩, some false⟩)
        State.AtRest s := by
  have h₀ : (listenerLts memoryCoordinator String Unit).Reachable (.init ..) := .init rfl
  have h₁ := h₀.run (run_listen 0 () ⟨100, none, none⟩ none .reject (fun _ _ _ _ => trivial)
    rfl rfl rfl rfl rfl)
  have h₂ := h₁.run (run_resolve 0 () "hello" (fun _ _ _ _ => trivial) rfl rfl
    (ListenerKey.subKeys_chat 100) rfl rfl)
  have h₃ := h₂.tail (l := Label.startCancel 0 () ⟨100, none, none⟩ true false none) trivial
    (.startCancel rfl)
  exact ⟨_, rfl, ⟨_, rfl, rfl⟩, listeners_come_to_rest memoryCoordinator_responds _ h₃⟩

end Pyroflow
