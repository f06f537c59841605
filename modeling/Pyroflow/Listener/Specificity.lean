import Pyroflow.Coordinator.Redis
import Pyroflow.Listener.Invariant
import Pyroflow.Listener.Runs

/-!
# The most specific listener

What one call of `resolve` does when nothing comes between, with the listeners of its
session pending: it goes through the candidate keys, most specific first. The listeners
it finds there and the registry does not hold any more are removed and cancelled
(`Shared.Discards`), up to the first one that the registry holds. That one gets the
update, or is cancelled if the update is bypassed (`Shared.Resolves`).

`ResolveCall.Course` tells at each point of the call what it has done so far. Every step
keeps to it (`ResolveCall.Step.course`), and it leads to the end (`exists_run_ended`).
-/

namespace Pyroflow

variable {Sess : Type} {C : ListenerCoordinator Sess} {Update Metadata : Type}

/-! ### What a call does to the listeners -/

namespace Shared

variable (m m' : Shared C Update Metadata) (σ : Sess)

/-- The listeners of the session are pending, and each has a future of its own. -/
structure Pending : Prop where
  pending : ∀ {k l}, m.listeners σ k = some l → m.futures l.future = .pending
  own : ∀ {k k' l l'}, m.listeners σ k = some l → m.listeners σ k' = some l' →
    l.future = l'.future → k = k'

/-- The session has a listener under the key, and the registry holds its token. -/
def Owns (sub : ListenerKey) (l : ListenerModel C.Token Metadata) : Prop :=
  m.listeners σ sub = some l ∧ C.registered m.backend σ sub l.coordinatorId = true

/-- None of these keys has a listener that the registry holds. -/
def OwnsNone (subs : List ListenerKey) : Prop := ∀ sub ∈ subs, ∀ l, ¬ m.Owns σ sub l

/-- From `m` to `m'`, the listeners of the session under these keys are removed and fail
    with `ListenerCancelled`. No other listener and no other future changes, and the
    backend does not. -/
structure Discards (subs : List ListenerKey) : Prop where
  removed : ∀ sub ∈ subs, m'.listeners σ sub = none
  listeners : ∀ {σ' k}, ¬ (σ' = σ ∧ k ∈ subs) → m'.listeners σ' k = m.listeners σ' k
  cancelled : ∀ sub ∈ subs, ∀ l, m.listeners σ sub = some l →
    m'.futures l.future = .exception (.listenerCancelled sub false)
  futures : ∀ {c}, (∀ sub ∈ subs, ∀ l, m.listeners σ sub = some l → l.future ≠ c) →
    m'.futures c = m.futures c
  backend : m'.backend = m.backend

variable {m m' σ} {pre : List ListenerKey} {sub : ListenerKey}
  {l : ListenerModel C.Token Metadata}

theorem Discards.nil : m.Discards m σ [] :=
  ⟨nofun, fun _ => rfl, nofun, fun _ => rfl, rfl⟩

/-- A listener that is still there was there. -/
theorem Discards.of_some (h : m.Discards m' σ pre) (hl : m'.listeners σ sub = some l) :
    sub ∉ pre ∧ m.listeners σ sub = some l := by
  have hsub : sub ∉ pre := fun hmem => absurd ((h.removed sub hmem).symm.trans hl) nofun
  exact ⟨hsub, (h.listeners fun hs => hsub hs.2).symm.trans hl⟩

/-- A listener that is still there is pending. -/
theorem Discards.pending (h : m.Discards m' σ pre) (hm : m.Pending σ)
    (hl : m'.listeners σ sub = some l) : m'.futures l.future = .pending := by
  obtain ⟨hsub, hl⟩ := h.of_some hl
  rw [h.futures, hm.pending hl]
  -- No listener removed before has this future.
  intro k hk l' hl' hf
  exact hsub (hm.own hl' hl hf ▸ hk)

/-- There is no listener under the next key. -/
theorem Discards.skip (h : m.Discards m' σ pre) (hn : m'.listeners σ sub = none) :
    m.Discards m' σ (pre ++ [sub]) where
  removed k hk := by
    rcases List.mem_append.1 hk with hk | hk
    · exact h.removed k hk
    · rw [List.mem_singleton.1 hk, hn]
  listeners hk := h.listeners fun hs => hk ⟨hs.1, List.mem_append_left _ hs.2⟩
  cancelled k hk l hl := by
    by_cases hpre : k ∈ pre
    · exact h.cancelled k hpre l hl
    · -- It had no listener before either.
      obtain rfl := List.mem_singleton.1 ((List.mem_append.1 hk).resolve_left hpre)
      rw [← h.listeners fun hs => hpre hs.2, hn] at hl
      exact absurd hl nofun
  futures hc := h.futures fun k hk => hc k (List.mem_append_left _ hk)
  backend := h.backend

variable [DecidableEq Sess]

/-- A listener that is still there is cancelled by the local part of `_cancel`. -/
theorem Discards.cancel_eq (h : m.Discards m' σ pre) (hm : m.Pending σ)
    (hl : m'.listeners σ sub = some l) : m'.cancel σ sub false l.coordinatorId =
      ((m'.setListener σ sub none).complete l.future
        (.exception (.listenerCancelled sub false)), .proceed) := by
  have hp := h.pending hm hl
  simp only [cancel, hl]
  rw [if_neg fun hs => hs.2 rfl, hp]
  rfl

theorem Discards.proceeds (h : m.Discards m' σ pre) (hm : m.Pending σ)
    (hl : m'.listeners σ sub = some l) :
    (m'.cancel σ sub false l.coordinatorId).2 = .proceed :=
  congrArg Prod.snd (h.cancel_eq hm hl)

/-- The listener under the next key is cancelled. -/
theorem Discards.cancel (h : m.Discards m' σ pre) (hm : m.Pending σ)
    (hl : m'.listeners σ sub = some l) :
    m.Discards (m'.cancel σ sub false l.coordinatorId).1 σ (pre ++ [sub]) := by
  rw [h.cancel_eq hm hl]
  have hl₀ := (h.of_some hl).2
  -- Removed, and no other key changed; failed, and no other future.
  refine ⟨fun k hk => ?_, fun {σ' k} hk => ?_, fun k hk l' hl' => ?_, fun {c} hc => ?_, h.backend⟩
  · rw [complete_listeners, setListener_apply]
    split
    · rfl
    · next hne =>
      refine h.removed k ((List.mem_append.1 hk).resolve_right fun hk => hne ⟨rfl, ?_⟩)
      exact List.mem_singleton.1 hk
  · rw [complete_listeners, setListener_apply, if_neg]
    · exact h.listeners fun hs => hk ⟨hs.1, List.mem_append_left _ hs.2⟩
    · exact fun hs => hk ⟨hs.1, List.mem_append_right _ (List.mem_singleton.2 hs.2)⟩
  · rw [complete_futures]
    by_cases hks : k = sub
    · subst hks
      obtain rfl := Option.some.inj (hl₀.symm.trans hl')
      exact Function.update_self ..
    · rw [Function.update_of_ne fun hf => hks (hm.own hl' hl₀ hf), setListener_futures]
      refine h.cancelled k ((List.mem_append.1 hk).resolve_right fun hk => hks ?_) l' hl'
      exact List.mem_singleton.1 hk
  · rw [complete_futures, Function.update_of_ne, setListener_futures]
    · exact h.futures fun k hk => hc k (List.mem_append_left _ hk)
    · rintro rfl
      exact hc sub (List.mem_append_right _ (List.mem_singleton_self sub)) l hl₀ rfl

end Shared

/-! ### The course of a call -/

section Course

variable (m : Shared C Update Metadata) (σ : Sess) (r : CallId) (update : Update)
  (key : ListenerKey) (bypass : Bool)

/-- The first listener of the session, in the order of the sub-keys, that the registry
    holds. -/
structure Shared.Selects (pre : List ListenerKey) (sub : ListenerKey) (subs : List ListenerKey)
    (l : ListenerModel C.Token Metadata) : Prop where
  subKeys : key.subKeys = pre ++ sub :: subs
  before : m.OwnsNone σ pre
  owned : m.Owns σ sub l

/-- How the call ends. -/
inductive Shared.Resolves (m' : Shared C Update Metadata) : Outcome Update Unit → Prop
  /-- The listener selected gets the update. -/
  | delivered {m₁ pre sub subs l} (selects : m.Selects σ key pre sub subs l)
      (discards : m.Discards m₁ σ pre) (answer : bypass = false)
      (eq : m' = m₁.complete l.future (.result update r)) :
      Resolves m' (.returned ())
  /-- The listener selected is cancelled, and its registration with it. -/
  | bypassed {m₁ pre sub subs l} (selects : m.Selects σ key pre sub subs l)
      (discards : m.Discards m₁ σ (pre ++ [sub])) (answer : bypass = true)
      (eq : m' = m₁.setBackend (C.cancel m.backend σ sub).2)
      (unregistered : C.current m'.backend = Function.update (C.current m.backend) sub none) :
      Resolves m' (.raised (.unresolvedUpdate update))
  | unresolved (none : m.OwnsNone σ key.subKeys) (discards : m.Discards m' σ key.subKeys) :
      Resolves m' (.raised (.unresolvedUpdate update))

/-- What the call has done so far, from `m` on. -/
def ResolveCall.Course (call : ResolveCall C Update Metadata) (m' : Shared C Update Metadata) :
    Prop :=
  call.session = σ ∧ call.update = update ∧
  match call.pc with
  | .listenable | .extracting => m' = m
  | .waitLock k => k = key ∧ m' = m
  | .scanning k subs => k = key ∧ ∃ pre, key.subKeys = pre ++ subs ∧ m.OwnsNone σ pre ∧
      m.Discards m' σ pre
  | .checking k sub l subs => k = key ∧ ∃ pre, key.subKeys = pre ++ sub :: subs ∧
      m.OwnsNone σ pre ∧ m.Discards m' σ pre ∧ m'.listeners σ sub = some l
  | .checked k sub l subs registered => k = key ∧ ∃ pre, key.subKeys = pre ++ sub :: subs ∧
      m.OwnsNone σ pre ∧ m.Discards m' σ pre ∧ m'.listeners σ sub = some l ∧
      registered = C.registered m.backend σ sub l.coordinatorId
  | .bypassing k sub l => k = key ∧ ∃ pre subs, m.Selects σ key pre sub subs l ∧
      m.Discards m' σ pre ∧ m'.listeners σ sub = some l
  | .bypassed k sub => k = key ∧ ∃ pre subs l, m.Selects σ key pre sub subs l ∧
      m.Discards m' σ (pre ++ [sub]) ∧ bypass = true
  | .unresolved k => k = key ∧ m.OwnsNone σ key.subKeys ∧ m.Discards m' σ key.subKeys
  | .ended o => m.Resolves σ r update key bypass m' o

/-- The events of such a call: it is not cancelled, its hooks do not raise, and the update is
    listenable, has this key, and is bypassed or not. -/
inductive ResolveEvent.Answers : ResolveEvent → Prop
  | listenable : Answers (.listenable (some true))
  | key : Answers (.key (some key))
  | lock : Answers .lock
  | scan : Answers .scan
  | check : Answers .check
  | checked : Answers .checked
  | bypass : Answers (.bypass (some bypass))
  | cancel : Answers .cancel
  | unresolved : Answers .unresolved

variable {m σ r update key bypass}

theorem Shared.OwnsNone.concat {pre : List ListenerKey} {sub : ListenerKey}
    (h : m.OwnsNone σ pre) (hsub : ∀ l, ¬ m.Owns σ sub l) : m.OwnsNone σ (pre ++ [sub]) := by
  intro k hk
  rcases List.mem_append.1 hk with hk | hk
  · exact h k hk
  · exact List.mem_singleton.1 hk ▸ hsub

/-- Where no listener is left, none was that the registry holds. -/
theorem Shared.Discards.not_owns {m' : Shared C Update Metadata} {pre : List ListenerKey}
    {sub : ListenerKey} (h : m.Discards m' σ pre) (ho : m.OwnsNone σ pre)
    (hn : m'.listeners σ sub = none) (l : ListenerModel C.Token Metadata) :
    ¬ m.Owns σ sub l := by
  intro howns
  by_cases hsub : sub ∈ pre
  · exact ho sub hsub l howns
  · have := (h.listeners fun hs => hsub hs.2).symm.trans hn
    exact absurd (howns.1.symm.trans this) (Option.some_ne_none _)

variable [DecidableEq Sess] {call : ResolveCall C Update Metadata}
  {m₁ m' : Shared C Update Metadata} {e : ResolveEvent} {a : Mutex.Action ℤ}
  {pc : ResolvePc C.Token Update Metadata}

/-- A step keeps to the course. -/
theorem ResolveCall.Step.course (hst : call.Step r m₁ e a m' pc) (he : e.Answers key bypass)
    (hm : m.Pending σ) (hne : m.listeners σ ≠ fun _ => none)
    (h : call.Course m σ r update key bypass m₁) :
    ResolveCall.Course m σ r update key bypass { call with pc := pc } m' := by
  obtain ⟨rfl, rfl, h⟩ := h
  refine ⟨rfl, rfl, ?_⟩
  -- Up to the lock nothing changes; each turn of the scan adds its key to those passed; a
  -- listener that the registry holds is the one selected.
  cases hst with
  | listenable pc =>
    simp only [pc] at h ⊢
    exact h
  | key pc =>
    cases he
    simp only [pc] at h ⊢
    exact ⟨trivial, h⟩
  | noListeners pc listeners =>
    simp only [pc] at h
    exact absurd (h ▸ listeners) hne
  | lock pc =>
    simp only [pc] at h ⊢
    obtain ⟨rfl, rfl⟩ := h
    exact ⟨rfl, [], rfl, nofun, .nil⟩
  | scanNone pc none =>
    simp only [pc] at h ⊢
    obtain ⟨rfl, pre, hsubs, ho, hd⟩ := h
    exact ⟨rfl, pre ++ [_], by rw [hsubs, List.append_assoc]; rfl, ho.concat (hd.not_owns ho none),
      hd.skip none⟩
  | scan pc some =>
    simp only [pc] at h ⊢
    obtain ⟨rfl, pre, hsubs, ho, hd⟩ := h
    exact ⟨rfl, pre, hsubs, ho, hd, some⟩
  | scanned pc =>
    simp only [pc] at h ⊢
    obtain ⟨rfl, pre, hsubs, ho, hd⟩ := h
    rw [hsubs, List.append_nil]
    exact ⟨rfl, ho, hd⟩
  | check pc =>
    simp only [pc] at h ⊢
    obtain ⟨rfl, pre, hsubs, ho, hd, hl⟩ := h
    exact ⟨rfl, pre, hsubs, ho, hd, hl, by rw [hd.backend]⟩
  | owned pc =>
    simp only [pc] at h ⊢
    obtain ⟨rfl, pre, hsubs, ho, hd, hl, hreg⟩ := h
    exact ⟨rfl, pre, _, ⟨hsubs, ho, (hd.of_some hl).2, hreg.symm⟩, hd, hl⟩
  | @superseded _ sub l _ pc head =>
    simp only [pc] at h ⊢
    obtain ⟨rfl, pre, hsubs, ho, hd, hl, hreg⟩ := h
    refine ⟨rfl, pre ++ [sub], by rw [hsubs, List.append_assoc]; rfl, ho.concat fun l' hl' => ?_,
      hd.cancel hm hl⟩
    obtain rfl := Option.some.inj ((hd.of_some hl).2.symm.trans hl'.1)
    exact absurd (hreg.trans hl'.2) Bool.false_ne_true
  | bypass pc head =>
    cases he
    simp only [pc] at h ⊢
    obtain ⟨rfl, pre, subs, hsel, hd, hl⟩ := h
    exact ⟨rfl, pre, subs, _, hsel, hd.cancel hm hl, trivial⟩
  | bypassed pc =>
    simp only [pc] at h ⊢
    obtain ⟨rfl, pre, subs, l, hsel, hd, hb⟩ := h
    exact .bypassed hsel hd hb (by rw [hd.backend]) (hd.backend ▸ ListenerCoordinator.current_cancel)
  | deliver pc pending =>
    cases he
    simp only [pc] at h ⊢
    obtain ⟨rfl, pre, subs, hsel, hd, hl⟩ := h
    exact .delivered hsel hd rfl rfl
  | unresolved pc =>
    simp only [pc] at h ⊢
    obtain ⟨rfl, ho, hd⟩ := h
    exact .unresolved ho hd
  -- The listeners that are still there are pending, and of the generation looked up.
  | supersededInvalid pc head =>
    simp only [pc] at h
    obtain ⟨rfl, pre, hsubs, ho, hd, hl, hreg⟩ := h
    exact absurd (head.symm.trans (hd.proceeds hm hl)) (by decide)
  | bypassStale pc head | bypassInvalid pc head =>
    simp only [pc] at h
    obtain ⟨rfl, pre, subs, hsel, hd, hl⟩ := h
    exact absurd (head.symm.trans (hd.proceeds hm hl)) (by decide)
  | deliverInvalid pc done =>
    simp only [pc] at h
    obtain ⟨rfl, pre, subs, hsel, hd, hl⟩ := h
    exact absurd (hd.pending hm hl) done
  | _ => cases he

end Course

/-! ### The runs of one call -/

section Runs

variable [DecidableEq Sess] {s s' : State C Update Metadata} {σ : Sess} {r : CallId}
  {update : Update} {key : ListenerKey} {bypass : Bool} {call : ResolveCall C Update Metadata}

/-- The labels of one such call of `resolve`. -/
inductive Label.ResolvesAlone (σ : Sess) (r : CallId) (update : Update) (key : ListenerKey)
    (bypass : Bool) : Label C Update Metadata → Prop
  | start : ResolvesAlone σ r update key bypass (.startResolve r σ update)
  | resolve {e : ResolveEvent} (answers : e.Answers key bypass) :
      ResolvesAlone σ r update key bypass (.resolve r e)

/-- The runs of one such call of `resolve`, with nothing in between. -/
abbrev RunsAlone (σ : Sess) (r : CallId) (update : Update) (key : ListenerKey) (bypass : Bool) :
    State C Update Metadata → State C Update Metadata → Prop :=
  (listenerLts C Update Metadata).RunUnder fun _ l => l.ResolvesAlone σ r update key bypass

omit [DecidableEq Sess] in
theorem Label.resolvesAlone_iff {l : Label C Update Metadata} :
    l.ResolvesAlone σ r update key bypass ↔
      l.ResolvesBy σ r update fun e => e.Answers key bypass := by
  constructor
  · rintro (_ | h)
    · exact .start
    · exact .resolve h
  · rintro (_ | h)
    · exact .start
    · exact .resolve h

/-- In such a run, the call keeps to its course. -/
theorem course_of_run (hr : s.resolves r = none) (hm : s.shared.Pending σ)
    (hne : s.shared.listeners σ ≠ fun _ => none) (hrun : RunsAlone σ r update key bypass s s')
    (hcall : s'.resolves r = some call) :
    call.Course s.shared σ r update key bypass s'.shared :=
  resolve_of_run (I := fun call m => call.Course s.shared σ r update key bypass m) hr
    ⟨rfl, rfl, rfl⟩ (fun _ _ _ _ _ _ hst he h => hst.course he hm hne h)
    (hrun.mono fun _ _ => Label.resolvesAlone_iff.1) hcall

/-- With the chat lock free, the call has such a run to its end. -/
theorem exists_run_ended (hr : s.resolves r = none) (hne : s.shared.listeners σ ≠ fun _ => none)
    (hfree : s.locked key.chatId = false) :
    ∃ s' call o, RunsAlone σ r update key bypass s s' ∧ s'.resolves r = some call ∧
      call.pc = .ended o := by
  have hA : ResolveEvent.Covers (fun e => e.Answers key bypass) key bypass :=
    ⟨.listenable, .key, .lock, .scan, .check, .checked, .bypass, .cancel, .unresolved⟩
  obtain ⟨s', call, o, hrun, hcall, hpc⟩ := exists_run_of_covers hA hr hne hfree
  exact ⟨s', call, o, hrun.mono fun _ _ => Label.resolvesAlone_iff.2, hcall, hpc⟩

/-- In a reachable state, each listener has a future of its own: that of the call that waits
    under its key. -/
theorem pending_of_reachable (h : (listenerLts C Update Metadata).Reachable s)
    (hp : ∀ k l, s.shared.listeners σ k = some l → s.shared.futures l.future = .pending) :
    s.shared.Pending σ where
  pending hl := hp _ _ hl
  own {k k' l l'} hl hl' hf := by
    obtain ⟨call, _, _, hc, _, _, hk, _⟩ := waited_of_reachable h σ k l hl
    obtain ⟨call', _, _, hc', _, _, hk', _⟩ := waited_of_reachable h σ k' l' hl'
    rw [hf, hc', Option.some.injEq] at hc
    rw [← hk, ← hk', hc]

/-- `resolve` picks the most specific listener that the registry holds, and touches nothing
    else. From a state where the session has listeners, all pending, a call of `resolve`
    for a listenable update with this key, in one critical section, ends, whatever the
    registry holds. The listeners before the one selected are removed and fail with
    `ListenerCancelled`. The one selected gets the update and the call returns, or, if the
    update is bypassed, it is cancelled as well, and unregistered. Without one selected, or
    with it bypassed, the call raises `UnresolvedUpdate`. The other listeners, futures and
    registrations do not change. -/
theorem resolves_most_specific (σ : Sess) (r : CallId) (update : Update) (key : ListenerKey)
    (bypass : Bool) (hr : s.resolves r = none) (hm : s.shared.Pending σ)
    (hne : s.shared.listeners σ ≠ fun _ => none) :
    (s.locked key.chatId = false → ∃ s' call o, RunsAlone σ r update key bypass s s' ∧
      s'.resolves r = some call ∧ call.pc = .ended o) ∧
    ∀ s' call o, RunsAlone σ r update key bypass s s' → s'.resolves r = some call →
      call.pc = .ended o → s.shared.Resolves σ r update key bypass s'.shared o := by
  refine ⟨exists_run_ended hr hne, fun s' call o hrun hcall hpc => ?_⟩
  have hcourse := (course_of_run hr hm hne hrun hcall).2.2
  rw [hpc] at hcourse
  exact hcourse

end Runs

/-- An update of a user. The session listens for him and for the whole chat, but another one
    has taken his key over. -/
theorem resolves_most_specific_chat : ∃ s s' : State (redisCoordinator Bool ℕ) String Unit,
    (listenerLts (redisCoordinator Bool ℕ) String Unit).Reachable s ∧
    s.shared.listeners false ⟨100, some 7, none⟩ =
      some ⟨⟨100, some 7, none⟩, none, 0, some (7 : ℕ)⟩ ∧
    RedisListenerCoordinator.redis s.shared.backend ⟨100, some 7, none⟩ = some 9 ∧
    s.shared.listeners false ⟨100, none, none⟩ =
      some ⟨⟨100, none, none⟩, none, 1, some (8 : ℕ)⟩ ∧
    RunsAlone false 0 "hello" ⟨100, some 7, none⟩ false s s' ∧
    s'.shared.futures 0 = .exception (.listenerCancelled ⟨100, some 7, none⟩ false) ∧
    s'.shared.futures 1 = .result "hello" 0 := by
  have h₀ : (listenerLts (redisCoordinator Bool ℕ) String Unit).Reachable (.init ..) := .init rfl
  have h₁ := h₀.run (run_listen 0 false ⟨100, some 7, none⟩ none .reject
    (fun _ _ _ _ => trivial) rfl rfl rfl rfl (t := (7 : ℕ)) ⟨id, rfl⟩)
  have h₂ := h₁.run (run_listen 1 false ⟨100, none, none⟩ none .reject
    (fun _ _ _ _ => trivial) rfl rfl rfl rfl (t := (8 : ℕ)) ⟨fun h => Or.elim h nofun id, rfl⟩)
  -- The other session takes the key of the user over.
  have h₃ := h₂.run (run_take_over 2 true ⟨100, some 7, none⟩ none (fun _ _ _ _ => trivial)
    rfl rfl rfl rfl (t := (9 : ℕ))
    ⟨fun h => Or.elim h nofun fun h => Or.elim h nofun id, rfl⟩)
  obtain ⟨s, h, hl, hredis, hchat, hreg, hother, hf, hfree, hnew⟩ :
      ∃ s : State (redisCoordinator Bool ℕ) String Unit,
        (listenerLts (redisCoordinator Bool ℕ) String Unit).Reachable s ∧
        s.shared.listeners false ⟨100, some 7, none⟩ =
          some ⟨⟨100, some 7, none⟩, none, 0, some (7 : ℕ)⟩ ∧
        RedisListenerCoordinator.redis s.shared.backend ⟨100, some 7, none⟩ = some 9 ∧
        s.shared.listeners false ⟨100, none, none⟩ =
          some ⟨⟨100, none, none⟩, none, 1, some (8 : ℕ)⟩ ∧
        (redisCoordinator Bool ℕ).registered s.shared.backend false ⟨100, none, none⟩
          (some (8 : ℕ)) = true ∧
        (redisCoordinator Bool ℕ).registered s.shared.backend false ⟨100, some 7, none⟩
          (some (7 : ℕ)) = false ∧
        (∀ c, s.shared.futures c = .pending) ∧ s.locked 100 = false ∧ s.resolves 0 = none :=
    ⟨_, h₃, rfl, rfl, rfl, rfl, rfl, fun _ => rfl, rfl, rfl⟩
  have hm : s.shared.Pending false := pending_of_reachable h fun _ _ _ => hf _
  obtain ⟨hrun, hend⟩ := resolves_most_specific false 0 "hello" ⟨100, some 7, none⟩ false hnew hm
    (fun hn => absurd (hl.symm.trans (congrFun hn _)) (Option.some_ne_none _))
  obtain ⟨s', call, o, hrun, hcall, hpc⟩ := hrun hfree
  have hsubs : (ListenerKey.mk 100 (some 7) none).subKeys =
      [⟨100, some 7, none⟩, ⟨100, none, none⟩] := by decide
  refine ⟨s, s', h, hl, hredis, hchat, hrun, ?_⟩
  cases hend s' call o hrun hcall hpc with
  | @delivered _ pre _ _ _ selects discards _ eq =>
    have hsplit := hsubs.symm.trans selects.subKeys
    rcases pre with _ | ⟨k, _ | ⟨k', _⟩⟩
    · -- The registry does not hold the token of the listener for the user.
      obtain ⟨rfl, -⟩ := List.cons.inj hsplit
      obtain rfl := Option.some.inj (hl.symm.trans selects.owned.1)
      exact absurd (hother.symm.trans selects.owned.2) Bool.false_ne_true
    · obtain ⟨rfl, hrest⟩ := List.cons.inj hsplit
      obtain ⟨rfl, -⟩ := List.cons.inj hrest
      obtain rfl := Option.some.inj (hchat.symm.trans selects.owned.1)
      have hzero := discards.cancelled _ (List.mem_singleton_self _) _ hl
      rw [eq, Shared.complete_futures, Shared.complete_futures]
      exact ⟨(Function.update_of_ne (by decide) ..).trans hzero, Function.update_self ..⟩
    · simp at hsplit
  | bypassed _ _ answer => exact absurd answer Bool.false_ne_true
  | unresolved none => exact absurd ⟨hchat, hreg⟩ (none ⟨100, .none, .none⟩ (by decide) _)

end Pyroflow
