import Pyroflow.Listener

/-!
# Runs of one call

What a call does when nothing comes between. A call of `listen` on a free key comes to
wait, registered and stored (`run_listen`), and so does one that replaces the listener of
another session (`run_take_over`). A call of `resolve` for an update whose first candidate
with a listener has a registered one comes to its bypass hook, holding the chat lock
(`run_resolve`, `run_resolve_of_append`). The labels of these runs are told by
`Label.ListensAlone` and `Label.Resolves`, for the conditions the runs may have to be
under. Whatever it finds, a call of `resolve` that scans its candidates comes to its end
(`exists_run_of_scanning`).
-/

namespace Pyroflow

variable {Sess : Type} {C : ListenerCoordinator Sess} {Update Metadata : Type}

/-- The events of a call of `listen`, up to its wait. -/
def ListenEvent.Alone : ListenEvent → Prop
  | .lock | .lookup | .looked | .replace | .register | .store => True
  | _ => False

/-- The labels of a call of `listen` that comes to wait. -/
def Label.ListensAlone (c : CallId) : Label C Update Metadata → Prop
  | .startListen c' .. => c' = c
  | .listen c' e => c' = c ∧ e.Alone
  | _ => False

theorem Label.ListensAlone.ne_stop {c : CallId} {l : Label C Update Metadata}
    (h : l.ListensAlone c) (σ : Sess) : l ≠ .stop σ := by
  rintro rfl
  exact h

theorem Label.ListensAlone.ne_interrupt {c : CallId} {l : Label C Update Metadata}
    (h : l.ListensAlone c) (c' : CallId) : l ≠ .listen c' .interrupt := by
  rintro rfl
  exact h.2

theorem Label.ListensAlone.ne_resolve {c : CallId} {l : Label C Update Metadata}
    (h : l.ListensAlone c) (r : CallId) (e : ResolveEvent) : l ≠ .resolve r e := by
  rintro rfl
  exact h

theorem Label.ListensAlone.ne_timer {c : CallId} {l : Label C Update Metadata}
    (h : l.ListensAlone c) (c' : CallId) : l ≠ .listen c' .timer := by
  rintro rfl
  exact h.2

/-- The events of a call of `resolve` with the key `key`, up to its bypass hook. -/
def ResolveEvent.Finds (key : ListenerKey) : ResolveEvent → Prop
  | .listenable answer => answer = some true
  | .key answer => answer = some key
  | .lock | .scan | .check | .checked => True
  | _ => False

/-- The labels of a call of `resolve` that finds a listener. -/
def Label.Resolves (r : CallId) (key : ListenerKey) : Label C Update Metadata → Prop
  | .startResolve r' .. => r' = r
  | .resolve r' e => r' = r ∧ e.Finds key
  | _ => False

theorem Label.Resolves.ne_stop {r : CallId} {key : ListenerKey} {l : Label C Update Metadata}
    (h : l.Resolves r key) (σ : Sess) : l ≠ .stop σ := by
  rintro rfl
  exact h

theorem Label.Resolves.ne_listen {r : CallId} {key : ListenerKey} {l : Label C Update Metadata}
    (h : l.Resolves r key) (c : CallId) (e : ListenEvent) : l ≠ .listen c e := by
  rintro rfl
  exact h

theorem Label.Resolves.ne_bypass {r : CallId} {key : ListenerKey} {l : Label C Update Metadata}
    (h : l.Resolves r key) (r' : CallId) (answer : Option Bool) :
    l ≠ .resolve r' (.bypass answer) := by
  rintro rfl
  exact h.2

variable [DecidableEq Sess] {s : State C Update Metadata}
  {P : State C Update Metadata → Label C Update Metadata → Prop}

/-- A call of `listen` on a free key waits, its listener registered and stored. -/
theorem run_listen (c : CallId) (σ : Sess) (key : ListenerKey) (metadata : Option Metadata)
    (policy : DuplicatePolicy) {t : C.Token} {b : C.State}
    (hP : ∀ s' l, s'.shared.callbacks = s.shared.callbacks → l.ListensAlone c → P s' l)
    (hc : s.listens c = none) (hfree : s.locked key.chatId = false)
    (hlook : C.registered s.shared.backend σ key none = false)
    (hl : s.shared.listeners σ key = none) (hreg : C.Registers s.shared.backend σ key t b) :
    (listenerLts C Update Metadata).RunUnder P s { s with
      shared := (s.shared.setBackend b).setListener σ key (some ⟨key, metadata, c, some t⟩)
      listens := Function.update s.listens c
        (some ⟨σ, key, metadata, policy, .waiting t .none⟩) } := by
  have h₀ : (listenerLts C Update Metadata).RunUnder P s s := .refl
  have h₁ := h₀.tail (l := Label.startListen c σ key metadata policy) (hP _ _ rfl rfl)
    (.startListen hc)
  have h₂ := h₁.tail (l := Label.listen c .lock) (hP _ _ rfl ⟨rfl, trivial⟩)
    (.listen (Function.update_self ..) (.lock rfl) hfree)
  have h₃ := h₂.tail (l := Label.listen c .lookup) (hP _ _ rfl ⟨rfl, trivial⟩)
    (.listen (Function.update_self ..) (.lookup rfl) trivial)
  have h₄ := h₃.tail (l := Label.listen c .looked) (hP _ _ rfl ⟨rfl, trivial⟩)
    (.listen (Function.update_self ..) (.proceed (congrArg ListenPc.looked hlook) hl) trivial)
  have h₅ := h₄.tail (l := Label.listen c .register) (hP _ _ rfl ⟨rfl, trivial⟩)
    (.listen (Function.update_self ..) (.register rfl hreg) trivial)
  have h₆ := h₅.tail (l := Label.listen c .store) (hP _ _ rfl ⟨rfl, trivial⟩)
    (.listen (Function.update_self ..) (.store rfl) trivial)
  -- The lock is free again.
  simpa only [Mutex.Action.apply, Function.update_idem, ← hfree, Function.update_eq_self] using h₆

/-- A call of `listen` that replaces the listener of another session: the key is registered,
    and no listener of its own session is under it. -/
theorem run_take_over (c : CallId) (σ : Sess) (key : ListenerKey) (metadata : Option Metadata)
    {t : C.Token} {b : C.State}
    (hP : ∀ s' l, s'.shared.callbacks = s.shared.callbacks → l.ListensAlone c → P s' l)
    (hc : s.listens c = none) (hfree : s.locked key.chatId = false)
    (hlook : C.registered s.shared.backend σ key none = true)
    (hl : s.shared.listeners σ key = none)
    (hreg : C.Registers (C.cancel s.shared.backend σ key).2 σ key t b) :
    (listenerLts C Update Metadata).RunUnder P s { s with
      shared := (s.shared.setBackend b).setListener σ key (some ⟨key, metadata, c, some t⟩)
      listens := Function.update s.listens c
        (some ⟨σ, key, metadata, .replace, .waiting t .none⟩) } := by
  have hhead : s.shared.cancel σ key true none = (s.shared, .proceed) := by
    rw [Shared.cancel, hl]
  have h₀ : (listenerLts C Update Metadata).RunUnder P s s := .refl
  have h₁ := h₀.tail (l := Label.startListen c σ key metadata .replace) (hP _ _ rfl rfl)
    (.startListen hc)
  have h₂ := h₁.tail (l := Label.listen c .lock) (hP _ _ rfl ⟨rfl, trivial⟩)
    (.listen (Function.update_self ..) (.lock rfl) hfree)
  have h₃ := h₂.tail (l := Label.listen c .lookup) (hP _ _ rfl ⟨rfl, trivial⟩)
    (.listen (Function.update_self ..) (.lookup rfl) trivial)
  have h₄ := h₃.tail (l := Label.listen c .looked) (hP _ _ rfl ⟨rfl, trivial⟩)
    (.listen (Function.update_self ..)
      (.replace (congrArg ListenPc.looked hlook) rfl (congrArg Prod.snd hhead)) trivial)
  simp only [hhead] at h₄
  have h₅ := h₄.tail (l := Label.listen c .replace) (hP _ _ rfl ⟨rfl, trivial⟩)
    (.listen (Function.update_self ..) (.replaced rfl) trivial)
  have h₆ := h₅.tail (l := Label.listen c .register) (hP _ _ rfl ⟨rfl, trivial⟩)
    (.listen (Function.update_self ..) (.register rfl hreg) trivial)
  have h₇ := h₆.tail (l := Label.listen c .store) (hP _ _ rfl ⟨rfl, trivial⟩)
    (.listen (Function.update_self ..) (.store rfl) trivial)
  simpa only [Mutex.Action.apply, Shared.setBackend, Function.update_idem, ← hfree,
    Function.update_eq_self] using h₇

/-- The scan passes over the keys without a listener. -/
theorem run_scan {r : CallId} {σ : Sess} {update : Update} {key : ListenerKey}
    {subs : List ListenerKey} (hP : ∀ s' l, s'.shared = s.shared → l.Resolves r key → P s' l)
    (pre : List ListenerKey) (hpre : ∀ k ∈ pre, s.shared.listeners σ k = none)
    (hr : s.resolves r = some ⟨σ, update, .scanning key (pre ++ subs)⟩) :
    (listenerLts C Update Metadata).RunUnder P s { s with
      resolves := Function.update s.resolves r (some ⟨σ, update, .scanning key subs⟩) } := by
  induction pre generalizing s with
  | nil =>
    have h : Function.update s.resolves r (some ⟨σ, update, .scanning key subs⟩) = s.resolves := by
      rw [← List.nil_append subs, ← hr, Function.update_eq_self]
    rw [h]
    exact .refl
  | cons k pre ih =>
    have h₁ := (Lts.RunUnder.refl (T := listenerLts C Update Metadata)).tail
      (l := Label.resolve r .scan) (hP _ _ rfl ⟨rfl, trivial⟩)
      (.resolve hr (.scanNone rfl (hpre k List.mem_cons_self)) trivial)
    have h₂ := h₁.trans (ih (fun s' l h => hP s' l h)
      (fun k' hk' => hpre k' (List.mem_cons_of_mem _ hk')) (Function.update_self ..))
    simpa only [Mutex.Action.apply, Function.update_idem] using h₂

/-- A call of `resolve` finds a registered listener, under the first of its candidates that
    has one, and goes to its bypass hook. -/
theorem run_resolve_of_append (r : CallId) (σ : Sess) (update : Update) {key sub : ListenerKey}
    (pre : List ListenerKey) {subs : List ListenerKey} {listener : ListenerModel C.Token Metadata}
    (hP : ∀ s' l, s'.shared = s.shared → l.Resolves r key → P s' l)
    (hr : s.resolves r = none) (hfree : s.locked key.chatId = false)
    (hsub : key.subKeys = pre ++ sub :: subs) (hpre : ∀ k ∈ pre, s.shared.listeners σ k = none)
    (hl : s.shared.listeners σ sub = some listener)
    (hreg : C.registered s.shared.backend σ sub listener.coordinatorId = true) :
    (listenerLts C Update Metadata).RunUnder P s { s with
      locked := Function.update s.locked key.chatId true
      resolves := Function.update s.resolves r
        (some ⟨σ, update, .bypassing key sub listener⟩) } := by
  have h₀ : (listenerLts C Update Metadata).RunUnder P s s := .refl
  have h₁ := h₀.tail (l := Label.startResolve r σ update) (hP _ _ rfl rfl) (.startResolve hr)
  have h₂ := h₁.tail (l := Label.resolve r (.listenable (some true))) (hP _ _ rfl ⟨rfl, rfl⟩)
    (.resolve (Function.update_self ..) (.listenable rfl) trivial)
  have h₃ := h₂.tail (l := Label.resolve r (.key (some key))) (hP _ _ rfl ⟨rfl, rfl⟩)
    (.resolve (Function.update_self ..)
      (.key rfl fun h => absurd (hl.symm.trans (congrFun h sub)) nofun) trivial)
  have h₄ := h₃.tail (l := Label.resolve r .lock) (hP _ _ rfl ⟨rfl, trivial⟩)
    (.resolve (Function.update_self ..) (.lock rfl) hfree)
  have h₅ := h₄.trans (run_scan (fun s' l h => hP s' l h) pre hpre
    ((Function.update_self ..).trans (by rw [hsub])))
  have h₆ := h₅.tail (l := Label.resolve r .scan) (hP _ _ rfl ⟨rfl, trivial⟩)
    (.resolve (Function.update_self ..) (.scan rfl hl) trivial)
  have h₇ := h₆.tail (l := Label.resolve r .check) (hP _ _ rfl ⟨rfl, trivial⟩)
    (.resolve (Function.update_self ..) (.check rfl) trivial)
  have h₈ := h₇.tail (l := Label.resolve r .checked) (hP _ _ rfl ⟨rfl, trivial⟩)
    (.resolve (Function.update_self ..) (.owned (congrArg _ hreg)) trivial)
  simpa only [Mutex.Action.apply, Function.update_idem] using h₈

/-- So it does when its first candidate has a listener. -/
theorem run_resolve (r : CallId) (σ : Sess) (update : Update) {key sub : ListenerKey}
    {subs : List ListenerKey} {listener : ListenerModel C.Token Metadata}
    (hP : ∀ s' l, s'.shared = s.shared → l.Resolves r key → P s' l)
    (hr : s.resolves r = none) (hfree : s.locked key.chatId = false)
    (hsub : key.subKeys = sub :: subs) (hl : s.shared.listeners σ sub = some listener)
    (hreg : C.registered s.shared.backend σ sub listener.coordinatorId = true) :
    (listenerLts C Update Metadata).RunUnder P s { s with
      locked := Function.update s.locked key.chatId true
      resolves := Function.update s.resolves r
        (some ⟨σ, update, .bypassing key sub listener⟩) } :=
  run_resolve_of_append r σ update [] hP hr hfree hsub (fun _ h => absurd h List.not_mem_nil) hl
    hreg

/-! ### Calls that run alone -/

/-- Among these events are all that a call of `resolve` may need, for a listenable update
    with this key that is bypassed or not. -/
structure ResolveEvent.Covers (A : ResolveEvent → Prop) (key : ListenerKey) (bypass : Bool) :
    Prop where
  listenable : A (.listenable (some true))
  key : A (.key (some key))
  lock : A .lock
  scan : A .scan
  check : A .check
  checked : A .checked
  bypass : A (.bypass (some bypass))
  cancel : A .cancel
  unresolved : A .unresolved

/-- The labels of a call of `resolve` with such events. -/
inductive Label.ResolvesBy (σ : Sess) (r : CallId) (update : Update) (A : ResolveEvent → Prop) :
    Label C Update Metadata → Prop
  | start : ResolvesBy σ r update A (.startResolve r σ update)
  | resolve {e : ResolveEvent} (h : A e) : ResolvesBy σ r update A (.resolve r e)

/-- The runs of such a call, with nothing in between. -/
abbrev RunsBy (σ : Sess) (r : CallId) (update : Update) (A : ResolveEvent → Prop) :
    State C Update Metadata → State C Update Metadata → Prop :=
  (listenerLts C Update Metadata).RunUnder fun _ l => l.ResolvesBy σ r update A

section Resolve

variable {s' : State C Update Metadata} {σ : Sess} {r : CallId} {update : Update}
  {A : ResolveEvent → Prop} {key : ListenerKey} {bypass : Bool}

/-- What holds of the call at its start, and is kept by its steps, holds of it in every run. -/
theorem resolve_of_run {I : ResolveCall C Update Metadata → Shared C Update Metadata → Prop}
    {call : ResolveCall C Update Metadata} (hr : s.resolves r = none)
    (hstart : I ⟨σ, update, .listenable⟩ s.shared)
    (hstep : ∀ call m e a m' pc, ResolveCall.Step r m call e a m' pc → A e → I call m →
      I { call with pc := pc } m')
    (hrun : RunsBy σ r update A s s')
    (hcall : s'.resolves r = some call) : I call s'.shared := by
  refine hrun.invariant_of_started (fun s => s.resolves r) State.shared hr ?_ ?_ hcall
  · intro s₁ l s₂ hnone hs hl hst
    cases hl with
    | start =>
      cases hst with
      | startResolve => exact ⟨_, Function.update_self .., hs ▸ hstart⟩
    | resolve =>
      cases hst with
      | resolve running => exact absurd (hnone.symm.trans running) nofun
  · intro s₁ l s₂ call hcall hi hl hst
    cases hl with
    | start =>
      cases hst with
      | startResolve new => exact absurd (new.symm.trans hcall) nofun
    | resolve h =>
      cases hst with
      | resolve running step =>
        obtain rfl := Option.some.inj (running.symm.trans hcall)
        exact ⟨_, Function.update_self .., hstep _ _ _ _ _ _ step h hi⟩

/-- The call takes a step. -/
theorem exists_run_resolve {call : ResolveCall C Update Metadata} {e : ResolveEvent}
    {a : Mutex.Action ℤ} {m : Shared C Update Metadata} {pc : ResolvePc C.Token Update Metadata}
    (hcall : s.resolves r = some call) (step : call.Step r s.shared e a m pc) (he : A e)
    (enabled : a.Enabled s.locked) :
    ∃ s', RunsBy call.session r call.update A s s' ∧
      s'.resolves r = some { call with pc := pc } ∧ s'.shared = m :=
  ⟨_, .tail .refl (.resolve he) (.resolve hcall step enabled), Function.update_self .., rfl⟩

/-- The scan of the candidates comes to an end, whatever it finds. -/
theorem exists_run_of_scanning (hA : ResolveEvent.Covers A key bypass) {subs : List ListenerKey}
    (hcall : s.resolves r = some ⟨σ, update, .scanning key subs⟩) :
    ∃ s' call o, RunsBy σ r update A s s' ∧ s'.resolves r = some call ∧ call.pc = .ended o := by
  -- By induction on the keys still to be tried.
  induction subs generalizing s with
  | nil =>
    obtain ⟨s₁, h₁, hc₁, _⟩ := exists_run_resolve hcall (.scanned rfl) hA.scan trivial
    obtain ⟨s₂, h₂, hc₂, _⟩ := exists_run_resolve hc₁ (.unresolved rfl) hA.unresolved trivial
    exact ⟨s₂, _, _, h₁.trans h₂, hc₂, rfl⟩
  | cons sub subs ih =>
    cases hl : s.shared.listeners σ sub with
    | none =>
      obtain ⟨s₁, h₁, hc₁, _⟩ := exists_run_resolve hcall (.scanNone rfl hl) hA.scan trivial
      obtain ⟨s', call, o, h', hc', ho⟩ := ih hc₁
      exact ⟨s', call, o, h₁.trans h', hc', ho⟩
    | some l =>
      obtain ⟨s₁, h₁, hc₁, hs₁⟩ := exists_run_resolve hcall (.scan rfl hl) hA.scan trivial
      obtain ⟨s₂, h₂, hc₂, hs₂⟩ := exists_run_resolve hc₁ (.check rfl) hA.check trivial
      have h₁₂ := h₁.trans h₂
      cases hreg : C.registered s₁.shared.backend σ sub l.coordinatorId with
      | false =>
        rw [hreg] at hc₂
        -- A superseded listener is cancelled, and the scan goes on, or this raises.
        by_cases hhead : (s₂.shared.cancel σ sub false l.coordinatorId).2 = .invalid
        · obtain ⟨s₃, h₃, hc₃, _⟩ := exists_run_resolve hc₂ (.supersededInvalid rfl hhead)
            hA.checked trivial
          exact ⟨s₃, _, _, h₁₂.trans h₃, hc₃, rfl⟩
        · obtain ⟨s₃, h₃, hc₃, _⟩ :=
            exists_run_resolve hc₂ (.superseded rfl hhead) hA.checked trivial
          obtain ⟨s', call, o, h', hc', ho⟩ := ih hc₃
          exact ⟨s', call, o, (h₁₂.trans h₃).trans h', hc', ho⟩
      | true =>
        rw [hreg] at hc₂
        obtain ⟨s₃, h₃, hc₃, _⟩ := exists_run_resolve hc₂ (.owned rfl) hA.checked trivial
        have h₁₃ := h₁₂.trans h₃
        cases hb : bypass with
        | false =>
          rw [hb] at hA
          by_cases hp : s₃.shared.futures l.future = .pending
          · obtain ⟨s₄, h₄, hc₄, _⟩ := exists_run_resolve hc₃ (.deliver rfl hp) hA.bypass trivial
            exact ⟨s₄, _, _, h₁₃.trans h₄, hc₄, rfl⟩
          · obtain ⟨s₄, h₄, hc₄, _⟩ := exists_run_resolve hc₃ (.deliverInvalid rfl hp) hA.bypass
              trivial
            exact ⟨s₄, _, _, h₁₃.trans h₄, hc₄, rfl⟩
        | true =>
          rw [hb] at hA
          cases hhead : (s₃.shared.cancel σ sub false l.coordinatorId).2 with
          | stale =>
            obtain ⟨s₄, h₄, hc₄, _⟩ := exists_run_resolve hc₃ (.bypassStale rfl hhead) hA.bypass
              trivial
            exact ⟨s₄, _, _, h₁₃.trans h₄, hc₄, rfl⟩
          | invalid =>
            obtain ⟨s₄, h₄, hc₄, _⟩ := exists_run_resolve hc₃ (.bypassInvalid rfl hhead) hA.bypass
              trivial
            exact ⟨s₄, _, _, h₁₃.trans h₄, hc₄, rfl⟩
          | proceed =>
            obtain ⟨s₄, h₄, hc₄, _⟩ := exists_run_resolve hc₃ (.bypass rfl hhead) hA.bypass trivial
            obtain ⟨s₅, h₅, hc₅, _⟩ := exists_run_resolve hc₄ (.bypassed rfl) hA.cancel trivial
            exact ⟨s₅, _, _, (h₁₃.trans h₄).trans h₅, hc₅, rfl⟩

/-- In a session with listeners, and with the chat lock free, the call comes to its end. -/
theorem exists_run_of_covers (hA : ResolveEvent.Covers A key bypass) (hr : s.resolves r = none)
    (hne : s.shared.listeners σ ≠ fun _ => none) (hfree : s.locked key.chatId = false) :
    ∃ s' call o, RunsBy σ r update A s s' ∧ s'.resolves r = some call ∧ call.pc = .ended o := by
  have h₁ : RunsBy σ r update A s _ := Lts.RunUnder.refl.tail .start (.startResolve hr)
  have h₂ := h₁.tail (l := Label.resolve r (.listenable (some true))) (.resolve hA.listenable)
    (.resolve (Function.update_self ..) (.listenable rfl) trivial)
  have h₃ := h₂.tail (l := Label.resolve r (.key (some key))) (.resolve hA.key)
    (.resolve (Function.update_self ..) (.key rfl hne) trivial)
  obtain ⟨s₄, h₄, hcall₄⟩ : ∃ s₄, RunsBy σ r update A s s₄ ∧
      s₄.resolves r = some ⟨σ, update, .scanning key key.subKeys⟩ :=
    ⟨_, h₃.tail (l := Label.resolve r .lock) (.resolve hA.lock)
      (.resolve (Function.update_self ..) (.lock rfl) hfree), Function.update_self ..⟩
  obtain ⟨s', call, o, h₅, hcall, hpc⟩ := exists_run_of_scanning hA hcall₄
  exact ⟨s', call, o, h₄.trans h₅, hcall, hpc⟩

end Resolve

end Pyroflow
