import Pyroflow.Coordinator.Redis
import Pyroflow.Listener.Registry
import Pyroflow.Listener.Runs

/-!
# Fencing by tokens

Sessions over one Redis, none of them stopping, with cancel signals that may be
delayed, reordered, duplicated or lost. A token is a generation of a key, and
nothing is done to a listener of another generation:

* an update is delivered to a listener only while its own token is registered
  (`fenced_delivery`). The registration is checked before the bypass hook, and
  the chat lock, held since, protects it;
* a cancel signal fails the listener whose token it names, and nothing else
  (`signal_hits_generation`). The token it names was revoked before the signal
  was published, and is never registered again.
-/

namespace Pyroflow

variable {Sess : Type} [DecidableEq Sess] {C : ListenerCoordinator Sess} {Update Metadata : Type}

section Fencing

variable {s s' : State C Update Metadata} {l : Label C Update Metadata}

/-- An update is delivered to the listener of a call while the token of the call
    is registered. -/
theorem Step.current_of_deliver (h : Step s l s')
    (hr : (listenerLts C Update Metadata).ReachableUnder NoStop s) {c : CallId}
    (hc : s.shared.futures c = .pending) {update : Update} {r : CallId}
    (hd : s'.shared.futures c = .result update r) :
    ∃ call t, s.listens c = some call ∧ call.token = some t ∧
      C.current s.shared.backend call.key = some t ∧ s'.shared.backend = s.shared.backend := by
  rcases h.futures_cases c with he | ⟨_, hcomp⟩
  · rw [hd, hc] at he
    exact absurd he nofun
  rw [hd] at hcomp
  cases hcomp with
  | @deliver _ rc _ k listener hr₁ hpc hl =>
    obtain ⟨call, t, hcall, ht, _, rfl, hlist⟩ :=
      candidates_of_reachable hr _ _ _ _ hr₁ (by rw [ResolveCall.candidate, hpc])
    have hcur := (protected_of_reachable hr (.resolve _) rc hr₁).bypassing hpc
    refine ⟨call, t, hl ▸ hcall, ListenCall.token_of_stored ht, by rw [hcur, hlist], ?_⟩
    cases h with
    | resolve running step =>
      rw [hr₁, Option.some.injEq] at running
      subst running
      cases step with
      | deliver | deliverInvalid => rfl

/-- Once the token of a call is not registered under its key any more, no update
    is delivered to its listener. -/
theorem never_delivered (hr : (listenerLts C Update Metadata).ReachableUnder NoStop s) {c : CallId}
    {call : ListenCall C Update Metadata} {t : C.Token} (hc : s.listens c = some call)
    (ht : call.token = some t) (hlost : C.current s.shared.backend call.key ≠ some t)
    (hrun : (listenerLts C Update Metadata).RunUnder NoStop s s') {update : Update} {r : CallId}
    (hd : s'.shared.futures c = .result update r) : s.shared.futures c = .result update r := by
  -- Along the run, the call keeps its token, and the token stays away from its key.
  suffices h : (listenerLts C Update Metadata).ReachableUnder NoStop s' ∧
      (∃ call', s'.listens c = some call' ∧ call'.token = some t ∧ call'.key = call.key) ∧
      C.current s'.shared.backend call.key ≠ some t ∧
      ∀ update r, s'.shared.futures c = .result update r →
        s.shared.futures c = .result update r from h.2.2.2 update r hd
  refine hrun.invariant (I := fun s' => (listenerLts C Update Metadata).ReachableUnder NoStop s' ∧
      (∃ call', s'.listens c = some call' ∧ call'.token = some t ∧ call'.key = call.key) ∧
      C.current s'.shared.backend call.key ≠ some t ∧
      ∀ update r, s'.shared.futures c = .result update r → s.shared.futures c = .result update r)
    ⟨hr, ⟨call, hc, ht, rfl⟩, hlost, fun _ _ h => h⟩ ?_
  rintro s₁ l s₂ ⟨hr₁, ⟨call₁, hc₁, ht₁, hk₁⟩, hlost₁, hres₁⟩ hp hst
  refine ⟨hr₁.tail hp hst, ?_, ?_, fun update r hd₂ => ?_⟩
  · obtain ⟨call₂, hc₂, ht₂, hk₂⟩ := hst.token_stays hc₁ ht₁
    exact ⟨call₂, hc₂, ht₂, hk₂.trans hk₁⟩
  · have hmem := (issued_of_reachable hr₁).mem c call₁ t hc₁ ht₁
    exact fun h => hlost₁ ((hst.view_le hp).2 _ t hmem h)
  · rcases hst.futures_cases c with he | ⟨hpend, _⟩
    · exact hres₁ update r (he.symm.trans hd₂)
    · -- A delivery would find the token registered.
      obtain ⟨call₂, t₂, hc₂, ht₂, hcur, _⟩ := hst.current_of_deliver hr₁ hpend hd₂
      rw [hc₁, Option.some.injEq] at hc₂
      subst hc₂
      rw [ht₁, Option.some.injEq] at ht₂
      subst ht₂
      exact absurd (hk₁ ▸ hcur) hlost₁

/-! ### Signals -/

/-- What the application, by the session `σ`, of a signal naming the key `k` and the
    token `X` does, from the state `s` to the state `s'`. -/
structure HitsGeneration (s s' : State C Update Metadata) (σ : Sess) (k : ListenerKey)
    (X : C.Token) : Prop where
  /-- Nothing changes in the registry. -/
  registry : s'.shared.backend = s.shared.backend
  /-- The pending listener of the session under the key fails with
      `ListenerCancelled` if and only if its token is the one named. -/
  hits : ∀ listener, s.shared.listeners σ k = some listener →
    s.shared.futures listener.future = .pending →
      (s'.shared.futures listener.future = .exception (.listenerCancelled k false) ↔
        listener.coordinatorId = some X)
  /-- The listeners with another token stay, and so do those under other keys. -/
  spares : ∀ σ' k' listener, s.shared.listeners σ' k' = some listener →
    listener.coordinatorId ≠ some X ∨ σ' ≠ σ ∨ k' ≠ k →
      s'.shared.listeners σ' k' = some listener ∧
        s'.shared.futures listener.future = s.shared.futures listener.future
  /-- No listener appears. -/
  shrinks : s.shared.Shrinks s'.shared
  /-- A future is completed only as that of the pending listener with the token
      named, which had lost its registration. -/
  lost : ∀ c, s'.shared.futures c ≠ s.shared.futures c → s.shared.futures c = .pending ∧
    ∃ listener, s.shared.listeners σ k = some listener ∧ listener.future = c ∧
      listener.coordinatorId = some X ∧ ∀ k', C.current s.shared.backend k' ≠ some X

/-- The local part of `_cancel`, for a token that is retired. -/
theorem HitsGeneration.of_cancel {σ : Sess} {k : ListenerKey} {X : C.Token} (hw : s.Waited)
    (hX : (C.view s.shared.backend).Retired X)
    (hs : s'.shared = (s.shared.cancel σ k false (some X)).1) : HitsGeneration s s' σ k X where
  registry := hs ▸ Shared.cancel_backend
  hits listener hl hp := by
    rw [hs]
    rcases s.shared.cancel_cases σ k false (some X) with
      ⟨hn, _⟩ | ⟨l, hl', ⟨_, hne, he⟩ | ⟨ht, ⟨hd, _⟩ | ⟨_, he⟩⟩⟩
    · rw [hl] at hn
      exact absurd hn nofun
    all_goals
      rw [hl, Option.some.injEq] at hl'
      subst hl'
    · rw [he, hp]
      exact iff_of_false nofun hne
    · exact absurd hp hd
    · rw [he, Shared.complete_futures, Function.update_self]
      exact iff_of_true rfl (ht.resolve_left nofun)
  spares σ' k' listener hl hne := by
    rw [hs]
    -- The listener under the key, if it has the token named, is another one.
    have hother : ∀ l, s.shared.listeners σ k = some l → l.coordinatorId = some X →
        (σ' = σ ∧ k' = k → False) ∧ listener.future ≠ l.future := by
      intro l hl' ht
      have hne' : σ' = σ ∧ k' = k → False := by
        rintro ⟨rfl, rfl⟩
        rw [hl, Option.some.injEq] at hl'
        exact (hne.resolve_right (by simp)) (hl' ▸ ht)
      refine ⟨hne', fun hf => hne' ?_⟩
      obtain ⟨call, _, _, hc, _, hσ, hk, _⟩ := hw σ' k' listener hl
      obtain ⟨call', _, _, hc', _, hσ', hk', _⟩ := hw σ k l hl'
      rw [← hf, hc, Option.some.injEq] at hc'
      exact ⟨hσ ▸ hc' ▸ hσ', hk ▸ hc' ▸ hk'⟩
    rcases s.shared.cancel_cases σ k false (some X) with
      ⟨_, he⟩ | ⟨l, hl', ⟨_, _, he⟩ | ⟨ht, ⟨_, he⟩ | ⟨_, he⟩⟩⟩
    · rw [he]
      exact ⟨hl, rfl⟩
    · rw [he]
      exact ⟨hl, rfl⟩
    · obtain ⟨hσk, _⟩ := hother l hl' (ht.resolve_left nofun)
      rw [he, Shared.setListener_apply, if_neg hσk]
      exact ⟨hl, rfl⟩
    · obtain ⟨hσk, hf⟩ := hother l hl' (ht.resolve_left nofun)
      rw [he, Shared.complete_listeners, Shared.setListener_apply, if_neg hσk,
        Shared.complete_futures, Function.update_of_ne hf]
      exact ⟨hl, rfl⟩
  shrinks := hs ▸ Shared.shrinks_cancel
  lost c hc := by
    rw [hs] at hc
    rcases Shared.cancel_futures (m := s.shared) c with he | ⟨hp, _, listener, hl, hf, ht⟩
    · exact absurd he hc
    · exact ⟨hp, listener, hl, hf, ht.resolve_left nofun, hX.2⟩

end Fencing

/-! ### Sessions over one Redis -/

section Redis

variable {Token : Type} [DecidableEq Token]

/-- The registry in Redis. -/
def State.redis (s : State (redisCoordinator Sess Token) Update Metadata) :
    ListenerKey → Option Token :=
  RedisListenerCoordinator.redis s.shared.backend

variable {s : State (redisCoordinator Sess Token) Update Metadata}

/-- Fenced delivery: whenever an update completes the future of a listener, Redis
    maps the key of the listener to its own token, before and after. Once the key
    is cancelled, or taken over, the future is never completed with an update. -/
theorem fenced_delivery
    (h : (listenerLts (redisCoordinator Sess Token) Update Metadata).ReachableUnder NoStop s)
    (c : CallId) :
    (∀ l s' update r, Step s l s' → s.shared.futures c = .pending →
      s'.shared.futures c = .result update r →
        ∃ call t, s.listens c = some call ∧ call.token = some t ∧
          s.redis call.key = some t ∧ s'.redis call.key = some t) ∧
    ∀ call t, s.listens c = some call → call.token = some t → s.redis call.key ≠ some t →
      ∀ s', (listenerLts _ _ _).RunUnder NoStop s s' → ∀ update r,
        s'.shared.futures c = .result update r → s.shared.futures c = .result update r := by
  constructor
  · intro l s' update r hst hc hd
    obtain ⟨call, t, hcall, ht, hcur, hb⟩ := hst.current_of_deliver h hc hd
    exact ⟨call, t, hcall, ht, hcur, by rw [State.redis, hb]; exact hcur⟩
  · intro call t hc ht hlost s' hrun update r hd
    exact never_delivered h hc ht hlost hrun hd

/-- A listener gets the update it waits for, its token being registered. -/
theorem fenced_delivery_registered : ∃ s : State (redisCoordinator Bool ℕ) String Unit,
    (listenerLts (redisCoordinator Bool ℕ) String Unit).ReachableUnder NoStop s ∧
    s.redis ⟨100, none, none⟩ = some 7 ∧ ∃ s', Step s (.resolve 0 (.bypass (some false))) s' ∧
      s'.shared.futures 0 = .result "hello" 0 := by
  have h₀ : (listenerLts (redisCoordinator Bool ℕ) String Unit).ReachableUnder NoStop (.init ..) :=
    .init rfl
  have h₁ := h₀.run (run_listen 0 false ⟨100, none, none⟩ none .replace
    (fun _ _ _ hl => hl.ne_stop) rfl rfl rfl rfl (t := (7 : ℕ)) ⟨id, rfl⟩)
  have h₂ := h₁.run (run_resolve 0 false "hello" (fun _ _ _ hl => hl.ne_stop) rfl rfl
    (ListenerKey.subKeys_chat 100) rfl rfl)
  obtain ⟨call, t, hc, ht, hcur, _⟩ := (fenced_delivery h₂ 0).1 _ _ _ _
    (.resolve (r := 0) rfl (.deliver rfl rfl) trivial) rfl rfl
  obtain rfl := Option.some.inj hc
  obtain rfl := Option.some.inj ht
  exact ⟨_, h₂, hcur, _, .resolve rfl (.deliver rfl rfl) trivial, rfl⟩

/-- Cancel signals hit exactly their generation. A call that applies a signal names
    a token `X`; it hits the listener of this token and spares the others, in
    particular every listener whose token is still registered. -/
theorem signal_hits_generation
    (h : (listenerLts (redisCoordinator Sess Token) Update Metadata).ReachableUnder NoStop s)
    {x : CallId} {call : CancelCall (redisCoordinator Sess Token) Update}
    (hx : s.cancels x = some call) (hsig : call.isSignal = true) :
    ∃ X : Token, call.coordinatorId = some X ∧
      (∀ s', Step s (.cancel x .head) s' → HitsGeneration s s' call.session call.key X) ∧
      (∀ e s', Step s (.cancel x e) s' → e ≠ .head → s'.shared = s.shared) ∧
      ∀ e s' listener, Step s (.cancel x e) s' →
        s.shared.listeners call.session call.key = some listener →
        s.redis call.key = listener.coordinatorId →
          s'.shared.listeners call.session call.key = some listener ∧
            s'.shared.futures listener.future = s.shared.futures listener.future := by
  obtain ⟨honly, hdup, X, hX, hret⟩ := retired_of_reachable h x call hx hsig
  have hrest : ∀ e s', Step s (.cancel x e) s' → e ≠ .head → s'.shared = s.shared := by
    intro e s' hst he
    cases hst with
    | cancel running step =>
      rw [hx, Option.some.injEq] at running
      subst running
      cases step with
      | lock | interrupt => rfl
      | stale | invalid | onlyLocal | proceed => exact absurd rfl he
      | coordinator pc =>
        have hboth := ((protected_of_reachable h (.cancel x) call hx).coordinator pc).1
        exact absurd (honly.symm.trans hboth) nofun
  have hhits : ∀ s', Step s (.cancel x .head) s' →
      HitsGeneration s s' call.session call.key X := by
    intro s' hst
    refine .of_cancel (waited_of_reachable h) hret ?_
    rw [← hdup, ← hX]
    cases hst with
    | cancel running step =>
      rw [hx, Option.some.injEq] at running
      subst running
      cases step <;> rfl
  refine ⟨X, hX, hhits, hrest, fun e s' listener hst hl hcur => ?_⟩
  by_cases he : e = .head
  · subst he
    refine (hhits s' hst).spares _ _ listener hl (.inl fun ht => ?_)
    exact hret.2 call.key (hcur.trans ht)
  · rw [hrest e s' hst he]
    exact ⟨hl, rfl⟩

/-- A session cancels a key, and the signal reaches the session of its listener. -/
theorem signal_hits_listener : ∃ s : State (redisCoordinator Bool ℕ) String Unit,
    (listenerLts _ _ _).ReachableUnder NoStop s ∧ s.shared.futures 0 = .pending ∧
      ∃ s', Step s (.cancel 1 .head) s' ∧
        s'.shared.futures 0 = .exception (.listenerCancelled ⟨100, none, none⟩ false) := by
  have h₀ : (listenerLts (redisCoordinator Bool ℕ) String Unit).ReachableUnder NoStop (.init ..) :=
    .init rfl
  have h₁ := h₀.run (run_listen 0 false ⟨100, none, none⟩ none .replace
    (fun _ _ _ hl => hl.ne_stop) rfl rfl rfl rfl (t := (7 : ℕ)) ⟨id, rfl⟩)
  have h₂ := h₁.tail (l := Label.startCancel 0 true ⟨100, none, none⟩ true false none)
    (by exact nofun) (.startCancel rfl)
  have h₃ := h₂.tail (by exact nofun) (.cancel (x := 0) rfl (.lock rfl) rfl)
  have h₄ := h₃.tail (by exact nofun) (.cancel (x := 0) rfl (.proceed rfl rfl rfl) trivial)
  have h₅ := h₄.tail (by exact nofun) (.cancel (x := 0) rfl (.coordinator rfl) trivial)
  have h₆ := h₅.tail (l := Label.signal 1 false ⟨100, none, none⟩ (7 : ℕ))
    (by exact nofun) (.signal rfl List.mem_cons_self)
  have h₇ := h₆.tail (by exact nofun) (.cancel (x := 1) rfl (.lock rfl) rfl)
  obtain ⟨X, hX, hhits, _⟩ := signal_hits_generation h₇ (x := 1) rfl rfl
  obtain rfl := Option.some.inj hX
  have hcancelled :=
    ((hhits _ (.cancel rfl (.onlyLocal rfl rfl rfl) trivial)).hits _ rfl rfl).2 rfl
  exact ⟨_, h₇, rfl, _, .cancel rfl (.onlyLocal rfl rfl rfl) trivial, hcancelled⟩

end Redis

end Pyroflow
