import Pyroflow.Listener

/-!
# What the calls of the listeners share

What the operations on the memory of the sessions do to it. They make it shrink
(`Shared.Shrinks`): no listener appears, and a done future stays as it is. That
`listen` stores its listener is the one exception.

* `_cancel` removes the listener under a key and fails its future, unless it is
  of another generation (`cancel_cases`);
* `_cleanup_listen` removes the listener of one call (`cleanupListen_eq`);
* a chat lock is to protect the registrations of its keys and the absence of
  listeners under them (`Shared.Undisturbed`).
-/

namespace Pyroflow

variable {Sess : Type} {C : ListenerCoordinator Sess} {Update Metadata : Type}

/-! ### The memory of the sessions -/

namespace Shared

variable {m m' m'' : Shared C Update Metadata}

/-- No listener appears, the done futures stay as they are, and the done-callbacks
    scheduled are those of futures completed. -/
structure Shrinks (m m' : Shared C Update Metadata) : Prop where
  listeners : ∀ σ k, m'.listeners σ k = none ∨ m'.listeners σ k = m.listeners σ k
  futures : ∀ c, m.futures c ≠ .pending → m'.futures c = m.futures c
  callbacks : ∀ c, m'.callbacks c = true → m.callbacks c = true ∨ m'.futures c ≠ .pending

theorem Shrinks.refl : m.Shrinks m := ⟨fun _ _ => .inr rfl, fun _ _ => rfl, fun _ h => .inl h⟩

theorem Shrinks.trans (h : m.Shrinks m') (h' : m'.Shrinks m'') : m.Shrinks m'' where
  listeners σ k := by
    rcases h'.listeners σ k with hn | he
    · exact .inl hn
    · exact he ▸ h.listeners σ k
  futures c hc := by
    have := h.futures c hc
    rw [h'.futures c (this ▸ hc), this]
  callbacks c hc := by
    rcases h'.callbacks c hc with hc | hd
    · refine (h.callbacks c hc).imp_right fun hd => ?_
      rwa [h'.futures c hd]
    · exact .inr hd

/-- A listener that is still there was there. -/
theorem Shrinks.of_some (h : m.Shrinks m') {σ : Sess} {k : ListenerKey}
    {l : ListenerModel C.Token Metadata} (hl : m'.listeners σ k = some l) :
    m.listeners σ k = some l := by
  rcases h.listeners σ k with hn | he
  · rw [hn] at hl
    exact absurd hl nofun
  · rw [← he, hl]

theorem shrinks_setBackend {b : C.State} : m.Shrinks (m.setBackend b) :=
  ⟨fun _ _ => .inr rfl, fun _ _ => rfl, fun _ h => .inl h⟩

/-- Completing a pending future. -/
theorem shrinks_complete {c : CallId} {f : Future Update} (hc : m.futures c = .pending)
    (hf : f ≠ .pending) : m.Shrinks (m.complete c f) := by
  refine ⟨fun _ _ => .inr rfl, fun c' hc' => ?_, fun c' hc' => ?_⟩
  · have hne : c' ≠ c := by
      rintro rfl
      exact hc' hc
    rw [complete_futures, Function.update_of_ne hne]
  · by_cases hne : c' = c
    · subst hne
      rw [complete_futures, Function.update_self]
      exact .inr hf
    · rw [complete_callbacks, Function.update_of_ne hne] at hc'
      exact .inl hc'

/-- The `except` blocks complete the future of the call, if it is pending. -/
theorem failWaiter_eq (c : CallId) (o : Outcome Update Update) :
    m.failWaiter c o = m ∨
      m.futures c = .pending ∧ ∃ exc, m.failWaiter c o = m.complete c (.exception exc) := by
  cases o with
  | returned u => exact .inl rfl
  | raised exc =>
    rw [failWaiter]
    by_cases hc : m.futures c = .pending
    · exact .inr ⟨hc, exc, if_neg (by simpa using hc)⟩
    · exact .inl (if_pos (Future.done_iff.2 hc))

/-- They leave a done future as it is. -/
theorem failWaiter_of_done {c : CallId} {o : Outcome Update Update} (hc : m.futures c ≠ .pending) :
    m.failWaiter c o = m := by
  rcases m.failWaiter_eq c o with h | ⟨hp, _⟩
  · exact h
  · exact absurd hp hc

theorem shrinks_failWaiter {c : CallId} {o : Outcome Update Update} :
    m.Shrinks (m.failWaiter c o) := by
  rcases m.failWaiter_eq c o with h | ⟨hp, _, h⟩
  · rw [h]
    exact .refl
  · exact h ▸ shrinks_complete hp nofun

theorem failWaiter_listeners {c : CallId} {o : Outcome Update Update} :
    (m.failWaiter c o).listeners = m.listeners := by
  rcases m.failWaiter_eq c o with h | ⟨_, _, h⟩
  · rw [h]
  · rw [h]
    rfl

theorem failWaiter_backend {c : CallId} {o : Outcome Update Update} :
    (m.failWaiter c o).backend = m.backend := by
  rcases m.failWaiter_eq c o with h | ⟨_, _, h⟩
  · rw [h]
  · rw [h]
    rfl

/-- A timer or a cancellation completes the future it reaches, if it is pending. -/
theorem cancelFuture_eq (c : CallId) :
    m.futures c ≠ .pending ∧ m.cancelFuture c = m ∨
      m.futures c = .pending ∧ m.cancelFuture c = m.complete c .cancelled := by
  rw [cancelFuture]
  by_cases hc : m.futures c = .pending
  · exact .inr ⟨hc, if_neg (by simpa using hc)⟩
  · exact .inl ⟨hc, if_pos (Future.done_iff.2 hc)⟩

theorem shrinks_cancelFuture {c : CallId} : m.Shrinks (m.cancelFuture c) := by
  rcases m.cancelFuture_eq c with ⟨_, h⟩ | ⟨hp, h⟩
  · rw [h]
    exact .refl
  · exact h ▸ shrinks_complete hp nofun

theorem cancelFuture_listeners {c : CallId} : (m.cancelFuture c).listeners = m.listeners := by
  rcases m.cancelFuture_eq c with ⟨_, h⟩ | ⟨_, h⟩
  · rw [h]
  · rw [h]
    rfl

theorem cancelFuture_backend {c : CallId} : (m.cancelFuture c).backend = m.backend := by
  rcases m.cancelFuture_eq c with ⟨_, h⟩ | ⟨_, h⟩
  · rw [h]
  · rw [h]
    rfl

/-- A timer or a cancellation leaves the future it reaches done. -/
theorem cancelFuture_done {c : CallId} : (m.cancelFuture c).futures c ≠ .pending := by
  rcases m.cancelFuture_eq c with ⟨hd, h⟩ | ⟨_, h⟩
  · rwa [h]
  · simp [h]

theorem cancelFuture_of_ne {c c' : CallId} (hc : c' ≠ c) :
    (m.cancelFuture c).futures c' = m.futures c' := by
  rcases m.cancelFuture_eq c with ⟨_, h⟩ | ⟨_, h⟩
  · rw [h]
  · rw [h, complete_futures, Function.update_of_ne hc]

variable [DecidableEq Sess] {σ σ' : Sess} {key k : ListenerKey}

theorem setListener_apply {l : Option (ListenerModel C.Token Metadata)} :
    (m.setListener σ key l).listeners σ' k =
      if σ' = σ ∧ k = key then l else m.listeners σ' k := by
  rw [setListener_listeners]
  by_cases hσ : σ' = σ
  · subst hσ
    rw [Function.update_self]
    simp only [Function.update_apply, true_and]
  · rw [Function.update_of_ne hσ, if_neg fun h => hσ h.1]

theorem shrinks_setListener_none : m.Shrinks (m.setListener σ key none) := by
  refine ⟨fun σ' k => ?_, fun _ _ => rfl, fun _ h => .inl h⟩
  rw [setListener_apply]
  split
  · exact .inl rfl
  · exact .inr rfl

/-- `_cleanup_listen` removes nothing but the listener of the call, under the key. -/
theorem cleanupListen_eq (m : Shared C Update Metadata) (σ : Sess) (key : ListenerKey)
    (c : CallId) :
    m.cleanupListen σ key c = m ∧ (∀ l, m.listeners σ key = some l → l.future ≠ c) ∨
      m.cleanupListen σ key c = m.setListener σ key none ∧
        ∃ l, m.listeners σ key = some l ∧ l.future = c := by
  rw [cleanupListen]
  cases hl : m.listeners σ key with
  | none => exact .inl ⟨rfl, nofun⟩
  | some l =>
    by_cases hc : l.future = c
    · exact .inr ⟨if_pos hc, l, rfl, hc⟩
    · refine .inl ⟨if_neg hc, fun l' hl' => ?_⟩
      cases hl'
      exact hc

theorem shrinks_cleanupListen {c : CallId} : m.Shrinks (m.cleanupListen σ key c) := by
  rcases m.cleanupListen_eq σ key c with ⟨h, _⟩ | ⟨h, _⟩
  · rw [h]
    exact .refl
  · exact h ▸ shrinks_setListener_none

theorem cleanupListen_futures {c : CallId} : (m.cleanupListen σ key c).futures = m.futures := by
  rcases m.cleanupListen_eq σ key c with ⟨h, _⟩ | ⟨h, _⟩
  · rw [h]
  · rw [h]
    rfl

theorem cleanupListen_backend {c : CallId} : (m.cleanupListen σ key c).backend = m.backend := by
  rcases m.cleanupListen_eq σ key c with ⟨h, _⟩ | ⟨h, _⟩
  · rw [h]
  · rw [h]
    rfl

/-- After `_cleanup_listen`, no listener of the call is under the key. -/
theorem cleanupListen_self {c : CallId} {l : ListenerModel C.Token Metadata}
    (h : (m.cleanupListen σ key c).listeners σ key = some l) : l.future ≠ c := by
  rcases m.cleanupListen_eq σ key c with ⟨he, hne⟩ | ⟨he, _⟩
  · exact hne l (he ▸ h)
  · rw [he, setListener_apply, if_pos ⟨rfl, rfl⟩] at h
    exact absurd h nofun

/-- `_cleanup_listen` spares the listeners of the other calls. -/
theorem cleanupListen_of_ne {c : CallId} {l : ListenerModel C.Token Metadata}
    (h : m.listeners σ' k = some l) (hl : l.future ≠ c) :
    (m.cleanupListen σ key c).listeners σ' k = some l := by
  rcases m.cleanupListen_eq σ key c with ⟨he, _⟩ | ⟨he, l', hl', hc⟩
  · rw [he, h]
  · rw [he, setListener_apply, if_neg, h]
    rintro ⟨rfl, rfl⟩
    rw [h, Option.some.injEq] at hl'
    exact hl (hl' ▸ hc)

theorem shrinks_callback {c : CallId} : m.Shrinks (m.callback σ key c) := by
  refine ⟨shrinks_cleanupListen.listeners, shrinks_cleanupListen.futures, fun c' hc' => ?_⟩
  simp only [callback, Function.update_apply] at hc'
  split at hc'
  · exact absurd hc' nofun
  · exact .inl hc'

/-! ### The local part of `_cancel` -/

variable {dup : Bool} {cid : Option C.Token}

/-- The outcomes of the local part of `_cancel`. -/
theorem cancel_cases (m : Shared C Update Metadata) (σ : Sess) (key : ListenerKey) (dup : Bool)
    (cid : Option C.Token) :
    (m.listeners σ key = none ∧ m.cancel σ key dup cid = (m, .proceed)) ∨
    ∃ l, m.listeners σ key = some l ∧
      ((cid ≠ none ∧ l.coordinatorId ≠ cid ∧ m.cancel σ key dup cid = (m, .stale)) ∨
      (cid = none ∨ l.coordinatorId = cid) ∧
        (m.futures l.future ≠ .pending ∧
          m.cancel σ key dup cid = (m.setListener σ key none, .invalid) ∨
        m.futures l.future = .pending ∧
          m.cancel σ key dup cid = ((m.setListener σ key none).complete l.future
            (.exception (.listenerCancelled key dup)), .proceed))) := by
  rw [cancel]
  cases hl : m.listeners σ key with
  | none => exact .inl ⟨rfl, rfl⟩
  | some l =>
    refine .inr ⟨l, rfl, ?_⟩
    by_cases hs : cid ≠ none ∧ l.coordinatorId ≠ cid
    · exact .inl ⟨hs.1, hs.2, if_pos hs⟩
    have hc : cid = none ∨ l.coordinatorId = cid := by
      by_contra h
      exact hs (not_or.1 h)
    refine .inr ⟨hc, ?_⟩
    simp only [if_neg hs]
    by_cases hd : m.futures l.future = .pending
    · exact .inr ⟨hd, by simp [hd, Future.done]⟩
    · exact .inl ⟨hd, by simp [Future.done_iff.2 hd]⟩

theorem shrinks_cancel : m.Shrinks (m.cancel σ key dup cid).1 := by
  rcases m.cancel_cases σ key dup cid with ⟨_, h⟩ | ⟨l, _, ⟨_, _, h⟩ | ⟨_, ⟨_, h⟩ | ⟨hp, h⟩⟩⟩
  · exact h ▸ .refl
  · exact h ▸ .refl
  · exact h ▸ shrinks_setListener_none
  · rw [h]
    exact .trans shrinks_setListener_none (shrinks_complete (by simpa using hp) nofun)

theorem cancel_backend : (m.cancel σ key dup cid).1.backend = m.backend := by
  rcases m.cancel_cases σ key dup cid with ⟨_, h⟩ | ⟨l, _, ⟨_, _, h⟩ | ⟨_, ⟨_, h⟩ | ⟨_, h⟩⟩⟩ <;>
    rw [h] <;> rfl

/-- Past the local part of `_cancel`, no listener is left under the key. -/
theorem cancel_proceed (h : (m.cancel σ key dup cid).2 = .proceed) :
    (m.cancel σ key dup cid).1.listeners σ key = none := by
  rcases m.cancel_cases σ key dup cid with ⟨hl, he⟩ | ⟨l, _, ⟨_, _, he⟩ | ⟨_, ⟨_, he⟩ | ⟨_, he⟩⟩⟩
  · rw [he]
    exact hl
  · exact absurd (he ▸ h) nofun
  · exact absurd (he ▸ h) nofun
  · rw [he, complete_listeners, setListener_apply, if_pos ⟨rfl, rfl⟩]

/-- It has found none, or one that was pending. -/
theorem pending_of_cancel_proceed (h : (m.cancel σ key dup cid).2 = .proceed)
    {l : ListenerModel C.Token Metadata} (hl : m.listeners σ key = some l) :
    m.futures l.future = .pending := by
  rcases m.cancel_cases σ key dup cid with
    ⟨hn, _⟩ | ⟨l', hl', ⟨_, _, he⟩ | ⟨_, ⟨_, he⟩ | ⟨hp, _⟩⟩⟩
  · exact absurd (hn.symm.trans hl) nofun
  · exact absurd (he ▸ h) nofun
  · exact absurd (he ▸ h) nofun
  · exact Option.some.inj (hl'.symm.trans hl) ▸ hp

/-- The local part of `_cancel` spares the listeners under other keys. -/
theorem cancel_listeners_of_ne (h : ¬(σ' = σ ∧ k = key)) :
    (m.cancel σ key dup cid).1.listeners σ' k = m.listeners σ' k := by
  rcases m.cancel_cases σ key dup cid with
    ⟨_, he⟩ | ⟨_, _, ⟨_, _, he⟩ | ⟨_, ⟨_, he⟩ | ⟨_, he⟩⟩⟩
  · rw [he]
  · rw [he]
  · rw [he, setListener_apply, if_neg h]
  · rw [he, complete_listeners, setListener_apply, if_neg h]

/-- `_cancel` raises `InvalidStateError` on a listener whose future is done. -/
theorem cancel_invalid_iff : (m.cancel σ key dup cid).2 = .invalid ↔
    ∃ l, m.listeners σ key = some l ∧ (cid = none ∨ l.coordinatorId = cid) ∧
      m.futures l.future ≠ .pending := by
  rcases m.cancel_cases σ key dup cid with
    ⟨hn, he⟩ | ⟨l, hl, ⟨hc, hne, he⟩ | ⟨hc, ⟨hd, he⟩ | ⟨hp, he⟩⟩⟩
  · rw [he, hn]
    exact iff_of_false nofun fun ⟨_, h, _⟩ => absurd h nofun
  all_goals simp only [he, hl, Option.some.injEq, exists_eq_left']
  · exact iff_of_false nofun fun h => h.1.elim hc hne
  · exact iff_of_true trivial ⟨hc, hd⟩
  · exact iff_of_false nofun fun h => h.2 hp

/-- The local part of `_cancel` completes no future but, with `ListenerCancelled`,
    that of the listener it finds under the key. -/
theorem cancel_futures (c : CallId) :
    (m.cancel σ key dup cid).1.futures c = m.futures c ∨
      m.futures c = .pending ∧
        (m.cancel σ key dup cid).1.futures c = .exception (.listenerCancelled key dup) ∧
        ∃ l, m.listeners σ key = some l ∧ l.future = c ∧ (cid = none ∨ l.coordinatorId = cid) := by
  rcases m.cancel_cases σ key dup cid with
    ⟨_, he⟩ | ⟨l, hl, ⟨_, _, he⟩ | ⟨hc, ⟨_, he⟩ | ⟨hp, he⟩⟩⟩
  · exact .inl (he ▸ rfl)
  · exact .inl (he ▸ rfl)
  · exact .inl (he ▸ rfl)
  · by_cases h : c = l.future
    · subst h
      exact .inr ⟨hp, by rw [he, complete_futures, Function.update_self], l, hl, rfl, hc⟩
    · refine .inl ?_
      rw [he, complete_futures, Function.update_of_ne h]
      rfl

/-- The local part of `_cancel` spares the listeners whose future stays pending. -/
theorem cancel_listeners {l : ListenerModel C.Token Metadata} (hl : m.listeners σ' k = some l)
    (hp : (m.cancel σ key dup cid).1.futures l.future = .pending) :
    (m.cancel σ key dup cid).1.listeners σ' k = some l := by
  rcases m.cancel_cases σ key dup cid with
    ⟨_, he⟩ | ⟨l', hl', ⟨_, _, he⟩ | ⟨_, ⟨hd, he⟩ | ⟨_, he⟩⟩⟩
  · rw [he, hl]
  · rw [he, hl]
  · rw [he] at hp ⊢
    rw [setListener_apply, if_neg, hl]
    rintro ⟨rfl, rfl⟩
    rw [hl, Option.some.injEq] at hl'
    exact hd (hl' ▸ hp)
  · rw [he] at hp ⊢
    rw [complete_listeners, setListener_apply, if_neg, hl]
    rintro ⟨rfl, rfl⟩
    rw [hl, Option.some.injEq] at hl'
    rw [complete_futures, hl', Function.update_self] at hp
    exact absurd hp nofun

/-! ### What a chat lock protects -/

omit [DecidableEq Sess] in
/-- What the lock of the chat protects is undisturbed: the registrations of its
    keys, and the absence of listeners under them. -/
def Undisturbed (m m' : Shared C Update Metadata) (chat : ℤ) : Prop :=
  ∀ k : ListenerKey, k.chatId = chat → C.current m'.backend k = C.current m.backend k ∧
    ∀ σ, m.listeners σ k = none → m'.listeners σ k = none

omit [DecidableEq Sess] in
/-- Without any change of the registry, and any new listener. -/
theorem Shrinks.undisturbed (h : m.Shrinks m') {chat : ℤ}
    (hb : ∀ k : ListenerKey, k.chatId = chat → C.current m'.backend k = C.current m.backend k) :
    m.Undisturbed m' chat := by
  refine fun k hk => ⟨hb k hk, fun σ hn => ?_⟩
  rcases h.listeners σ k with h | h
  · exact h
  · rw [h, hn]

end Shared

end Pyroflow
