import Pyroflow.Coordinator.Memory
import Pyroflow.Listener.Registry
import Pyroflow.Listener.Runs

/-!
# Buttons of an ask

A callback that no listener waits for may come from a button of an ask: of a message that
a listener of the client's message listener, `message_listen`, waits for an answer to, and
has in its metadata. `CallbackQueryListener.on_unresolved` looks for this listener, without
a lock, and makes a call of `message_listen.cancel` for the key it finds it under.

Here the calls of the message listeners go on as they do (`Listener`), and at any time a
session may make such a call, for a callback with any key on any message (`AskStep`). What
the call was made for is recorded, and the listener it cancels (`Ask`). It is to cancel
listeners of this message only, and to spare the registrations of other calls of `listen`
(`Ask.CancelsOwn`). It does if, when it runs under the chat lock, it finds a listener of
the message under the key, or none, and no other one registered there
(`cancelsOwn_of_reachable`), and only then (`Ask.undisputed_of_cancelsOwn`). So it does if
the listener found is the one registered, and nobody comes to listen on the key until the
call has run (`cancelsOwn_of_unattended`).
-/

namespace Pyroflow

/-! ### Looking for the ask -/

section OnUnresolved

variable {Token Metadata : Type}

/-- The metadata of the listener is a dictionary with this `message_id`; the answer for
    metadata that is there is `names`. -/
def ListenerModel.asks (names : Metadata → ℤ → Bool) (messageId : ℤ)
    (listener : ListenerModel Token Metadata) : Bool :=
  listener.metadata.any fun metadata => names metadata messageId

/-- `CallbackQueryListener.on_unresolved`, up to its call of `m_listen.cancel(sub)`: the key
    it makes it for, and the listener it found there. The callback may be on no message, or
    on one without an id, and the client without a message listener. -/
def CallbackQueryListener.onUnresolved (names : Metadata → ℤ → Bool)
    (mListeners : Option (ListenerKey → Option (ListenerModel Token Metadata)))
    (key : ListenerKey) (messageId : Option ℤ) :
    Option (ListenerKey × ListenerModel Token Metadata) :=
  match messageId, mListeners with
  | some messageId, some mListeners =>
    if messageId = 0 then none
    -- The first listener found ends the search, whether it is the one asked for or not.
    else (key.subKeys.findSome? fun sub =>
      (mListeners sub).map fun listener => (sub, listener)).filter
        fun found => found.2.asks names messageId
  | _, _ => none

/-- The listener found is under the key, and asks for the message. -/
theorem CallbackQueryListener.of_onUnresolved {names : Metadata → ℤ → Bool}
    {mListeners : ListenerKey → Option (ListenerModel Token Metadata)} {key sub : ListenerKey}
    {messageId : ℤ} {listener : ListenerModel Token Metadata}
    (h : onUnresolved names (some mListeners) key (some messageId) = some (sub, listener)) :
    mListeners sub = some listener ∧ listener.asks names messageId = true := by
  obtain ⟨_, h⟩ := Option.ite_none_left_eq_some.1 h
  obtain ⟨hfound, hasks⟩ := Option.filter_eq_some_iff.1 h
  obtain ⟨sub', _, hsub⟩ := List.exists_of_findSome?_eq_some hfound
  obtain ⟨_, hl, heq⟩ := Option.map_eq_some_iff.1 hsub
  obtain ⟨rfl, rfl⟩ := Prod.mk.inj heq
  exact ⟨hl, hasks⟩

/-- The listener on the whole chat is the last one it looks at. -/
theorem CallbackQueryListener.onUnresolved_chat {names : Metadata → ℤ → Bool}
    {mListeners : ListenerKey → Option (ListenerModel Token Metadata)}
    {listener : ListenerModel Token Metadata} (chatId userId messageId : ℤ) (hm : messageId ≠ 0)
    (hfull : mListeners ⟨chatId, some userId, some messageId⟩ = none)
    (huser : mListeners ⟨chatId, some userId, none⟩ = none)
    (hmessage : mListeners ⟨chatId, none, some messageId⟩ = none)
    (hchat : mListeners ⟨chatId, none, none⟩ = some listener)
    (hasks : listener.asks names messageId = true) :
    onUnresolved names (some mListeners) ⟨chatId, some userId, some messageId⟩ (some messageId) =
      some (⟨chatId, none, none⟩, listener) := by
  simp [onUnresolved, ListenerKey.subKeys_full, hm, hfull, huser, hmessage, hchat, hasks]

end OnUnresolved

variable {Sess : Type} {C : ListenerCoordinator Sess} {Update Metadata : Type}

/-! ### Asks -/

variable (C Metadata) in
/-- What a call of `message_listen.cancel` by `on_unresolved` was made for, and what it has
    done: the key it cancels, the message of the callback, the listener found, and the one
    it has cancelled, once it has run its local part. -/
structure Ask where
  session : Sess
  key : ListenerKey
  messageId : ℤ
  listener : ListenerModel C.Token Metadata
  cancelled : Option (ListenerModel C.Token Metadata)

namespace Ask

variable (ask : Ask C Metadata) (names : Metadata → ℤ → Bool) (m m' : Shared C Update Metadata)

/-- The ask, once the call has run its local part. -/
def look : Ask C Metadata := { ask with cancelled := m.listeners ask.session ask.key }

/-- The listener whose registration the call is to revoke: the one it has cancelled, or the
    one found, if there was none left to cancel. -/
def own : ListenerModel C.Token Metadata := ask.cancelled.getD ask.listener

/-- Under the key of the ask no other listener than its own is registered. -/
def NoOther : Prop := ∀ t, C.current m.backend ask.key = some t → ask.own.coordinatorId = some t

/-- The listener under the key, if there is one, asks for the message, and no other one is
    registered there, unless this listener is done, so that `_cancel` raises. -/
def Undisputed : Prop :=
  (∀ l, m.listeners ask.session ask.key = some l → l.asks names ask.messageId = true) ∧
  ((∀ l, m.listeners ask.session ask.key = some l → m.futures l.future = .pending) →
    (ask.look m).NoOther m)

/-- A step of the call cancels listeners of its message only, and revokes the registration
    of the listener it has cancelled only (or of the one found), a listener of its message. -/
structure CancelsOwn : Prop where
  listeners : ∀ σ k l, m.listeners σ k = some l → m'.listeners σ k ≠ some l →
    l.asks names ask.messageId = true
  futures : ∀ c, m'.futures c ≠ m.futures c →
    ∃ σ k l, m.listeners σ k = some l ∧ l.future = c ∧ l.asks names ask.messageId = true
  registry : ∀ k t, C.current m.backend k = some t → C.current m'.backend k ≠ some t →
    ask.own.coordinatorId = some t ∧ ask.own.asks names ask.messageId = true

variable {ask names m m'}

theorem CancelsOwn.refl : ask.CancelsOwn names m m :=
  ⟨fun _ _ _ h h' => absurd h h', fun _ h => absurd rfl h, fun _ _ h h' => absurd h h'⟩

/-- What the call cancels asks for the message. -/
theorem own_look_asks (hasks : ask.listener.asks names ask.messageId = true)
    (hl : ∀ l, m.listeners ask.session ask.key = some l → l.asks names ask.messageId = true) :
    (ask.look m).own.asks names ask.messageId = true := by
  rw [own, look]
  cases h : m.listeners ask.session ask.key with
  | none => exact hasks
  | some l => exact hl l h

variable [DecidableEq Sess]

/-- The local part of `_cancel`, with no listener under the key but of the message. -/
theorem cancelsOwn_cancel
    (hl : ∀ l, m.listeners ask.session ask.key = some l → l.asks names ask.messageId = true)
    {dup : Bool} {cid : Option C.Token} :
    ask.CancelsOwn names m (m.cancel ask.session ask.key dup cid).1 := by
  constructor
  · intro σ k l h h'
    by_cases hk : σ = ask.session ∧ k = ask.key
    · obtain ⟨rfl, rfl⟩ := hk
      exact hl l h
    · rw [Shared.cancel_listeners_of_ne hk] at h'
      exact absurd h h'
  · intro c hc
    rcases m.cancel_futures c with he | ⟨_, _, l, h, hf, _⟩
    · exact absurd he hc
    · exact ⟨_, _, l, h, hf, hl l h⟩
  · intro k t h h'
    rw [Shared.cancel_backend] at h'
    exact absurd h h'

omit [DecidableEq Sess] in
/-- The cancellation of the coordinator, with no other listener registered. -/
theorem cancelsOwn_coordinator (hasks : ask.own.asks names ask.messageId = true)
    (hn : ask.NoOther m) :
    ask.CancelsOwn names m (m.setBackend (C.cancel m.backend ask.session ask.key).2) := by
  refine ⟨fun _ _ _ h h' => absurd h h', fun _ h => absurd rfl h, fun k t h h' => ?_⟩
  rw [Shared.setBackend_backend, ListenerCoordinator.current_cancel] at h'
  by_cases hk : k = ask.key
  · exact ⟨hn t (hk ▸ h), hasks⟩
  · rw [Function.update_of_ne hk] at h'
    exact absurd h h'

/-- The key is undisputed whenever the local part of the call, and its coordinator right
    after it, spare what is not its own. -/
theorem undisputed_of_cancelsOwn {dup : Bool}
    (h : ask.CancelsOwn names m (m.cancel ask.session ask.key dup none).1)
    (h' : (m.cancel ask.session ask.key dup none).2 = .proceed →
      (ask.look m).CancelsOwn names m
        (m.setBackend (C.cancel m.backend ask.session ask.key).2)) :
    ask.Undisputed names m := by
  refine ⟨fun l hl => h.listeners _ _ l hl ?_,
    fun hp t ht => ((h' ?_).registry ask.key t ht ?_).1⟩
  · rcases m.cancel_cases ask.session ask.key dup none with
      ⟨hn, _⟩ | ⟨l', _, ⟨hc, _⟩ | ⟨_, ⟨_, he⟩ | ⟨_, he⟩⟩⟩
    · exact absurd (hn.symm.trans hl) nofun
    · exact absurd rfl hc
    · simp [he]
    · simp [he]
  · rcases m.cancel_cases ask.session ask.key dup none with
      ⟨_, he⟩ | ⟨l, hl, ⟨hc, _⟩ | ⟨_, ⟨hd, _⟩ | ⟨_, he⟩⟩⟩
    · rw [he]
    · exact absurd rfl hc
    · exact absurd (hp l hl) hd
    · rw [he]
  · rw [Shared.setBackend_backend, ListenerCoordinator.current_cancel, Function.update_self]
    exact nofun

end Ask

section Steps

variable [DecidableEq Sess] {m m' : Shared C Update Metadata} {call : CancelCall C Update}
  {e : CancelEvent} {a : Mutex.Action ℤ} {pc : CancelPc Update} {ask : Ask C Metadata}
  {names : Metadata → ℤ → Bool}

/-- What a step of the call does, the key being undisputed when it runs. -/
theorem CancelCall.Step.cancelsOwn (h : call.Step m e a m' pc) (hσ : call.session = ask.session)
    (hkey : call.key = ask.key) (hhead : e = .head → ask.Undisputed names m)
    (hn : call.pc = .coordinator → ask.own.asks names ask.messageId = true ∧ ask.NoOther m) :
    ask.CancelsOwn names m m' := by
  cases h with
  | lock | interrupt => exact .refl
  | stale | invalid | onlyLocal | proceed =>
    rw [hσ, hkey]
    exact Ask.cancelsOwn_cancel (hhead rfl).1
  | coordinator pc =>
    rw [hσ, hkey]
    exact Ask.cancelsOwn_coordinator (hn pc).1 (hn pc).2

/-- A call comes to the coordinator from its local part, which leaves the registry alone,
    and has found no listener that is done. -/
theorem CancelCall.Step.to_coordinator (h : call.Step m e a m' pc) (hpc : pc = .coordinator) :
    e = .head ∧ m'.backend = m.backend ∧
      ∀ l, m.listeners call.session call.key = some l → m.futures l.future = .pending := by
  cases h with
  | proceed _ _ head =>
    exact ⟨rfl, Shared.cancel_backend, fun _ hl => Shared.pending_of_cancel_proceed head hl⟩
  | _ => exact absurd hpc nofun

end Steps

/-! ### The system -/

variable (C Update Metadata) in
/-- A state of the message listeners of the sessions, with the calls of `cancel` that
    `on_unresolved` has made. -/
structure AskState extends State C Update Metadata where
  asks : CallId → Option (Ask C Metadata)

/-- The labels of the steps. -/
inductive AskLabel (C : ListenerCoordinator Sess) (Update Metadata : Type)
  | step (l : Label C Update Metadata)
  /-- `on_unresolved(key, update)`, of a session and for a callback on a message, makes a
      call of `cancel`. -/
  | ask (x : CallId) (session : Sess) (key : ListenerKey) (messageId : ℤ)

variable [DecidableEq Sess]

/-- The asks after a step: that of a call that runs its local part has cancelled what is
    under its key. -/
def AskState.noted (s : AskState C Update Metadata) :
    Label C Update Metadata → CallId → Option (Ask C Metadata)
  | .cancel x .head => Function.update s.asks x ((s.asks x).map (Ask.look · s.shared))
  | _ => s.asks

/-- The steps of the message listeners, and those of `on_unresolved`. -/
inductive AskStep (names : Metadata → ℤ → Bool) :
    AskState C Update Metadata → AskLabel C Update Metadata → AskState C Update Metadata → Prop
  | step {s l t} (step : Step s.toState l t) :
      AskStep names s (.step l) { s with toState := t, asks := s.noted l }
  | ask {s x σ key messageId sub listener t}
      (found : CallbackQueryListener.onUnresolved names (some (s.shared.listeners σ)) key
        (some messageId) = some (sub, listener))
      (step : Step s.toState (.startCancel x σ sub true false none) t) :
      AskStep names s (.ask x σ key messageId) { s with
        toState := t
        asks := Function.update s.asks x (some ⟨σ, sub, messageId, listener, none⟩) }

variable (C Update) in
/-- The message listeners and the callbacks of the sessions, as a transition system. -/
def askLts (names : Metadata → ℤ → Bool) :
    Lts (AskState C Update Metadata) (AskLabel C Update Metadata) where
  init s := s = ⟨.init C Update Metadata, fun _ => none⟩
  step := AskStep names

namespace AskState

variable (s : AskState C Update Metadata) (names : Metadata → ℤ → Bool)

/-- The condition on a step: a call by `on_unresolved` that runs, with the chat lock, finds
    its key undisputed. -/
def Undisputed : AskLabel C Update Metadata → Prop
  | .step (.cancel x .head) => ∀ ask, s.asks x = some ask → ask.Undisputed names s.shared
  | _ => True

/-- The ask is that of the call `x`, which, when it has come to the coordinator, has
    cancelled a listener of the message, and finds no other one registered. -/
def Asked (x : CallId) (ask : Ask C Metadata) : Prop :=
  ask.listener.asks names ask.messageId = true ∧
  ∃ call, s.cancels x = some call ∧ call.session = ask.session ∧ call.key = ask.key ∧
    (call.pc = .coordinator → ask.own.asks names ask.messageId = true ∧ ask.NoOther s.shared)

end AskState

variable {s s' : AskState C Update Metadata} {l : AskLabel C Update Metadata} {x : CallId}
  {ask : Ask C Metadata} {names : Metadata → ℤ → Bool}
  {P : AskState C Update Metadata → AskLabel C Update Metadata → Prop}

omit [DecidableEq Sess] in
/-- The asks stay as they are, but for that of the call that runs its local part. -/
theorem AskState.noted_of_ne {l : Label C Update Metadata} (hl : l ≠ .cancel x .head) :
    s.noted l x = s.asks x := by
  cases l with
  | cancel y e =>
    cases e with
    | head => exact Function.update_of_ne (fun h => hl (by rw [h])) ..
    | _ => rfl
  | _ => rfl

/-- The message listeners do nothing they could not do without callbacks. -/
theorem reachable_of_askLts (h : (askLts C Update names).ReachableUnder P s) :
    (listenerLts C Update Metadata).Reachable s.toState := by
  refine h.invariant (I := fun s => (listenerLts C Update Metadata).Reachable s.toState) ?_ ?_
  · rintro _ rfl
    exact .init rfl
  · intro s l s' ih _ hst
    cases hst with
    | step hst => exact ih.tail trivial hst
    | ask _ hst => exact ih.tail trivial hst

/-- While a call is at the coordinator, the chat lock keeps other listeners from being
    registered under its key. -/
theorem Step.noOther {t t' : State C Update Metadata} {l : Label C Update Metadata}
    {call : CancelCall C Update} (hr : (listenerLts C Update Metadata).Reachable t)
    (h : Step t l t') (hl : l.actor ≠ some (.cancel x)) (hx : t.cancels x = some call)
    (hkey : call.key = ask.key) (hpc : call.pc = .coordinator) (hn : ask.NoOther t.shared) :
    ask.NoOther t'.shared := by
  intro token ht
  refine hn token ?_
  by_cases hstop : ∃ σ, l = .stop σ
  · -- A coordinator that stops may only withdraw registrations.
    obtain ⟨σ, rfl⟩ := hstop
    cases h with
    | stop => exact C.stop_view _ _ _ _ ht
  · have hholds : t.holds (.cancel x) = some ask.key.chatId := by
      rw [State.holds, hx, Option.bind_some, CancelCall.holds, hpc, hkey]
    have hund : t.shared.Undisturbed t'.shared ask.key.chatId :=
      h.undisturbed (scans_of_reachable hr) (fun σ hσ => hstop ⟨σ, hσ⟩) fun o ho hc =>
        hl (by rw [ho, (guards_of_reachable hr).unique hc hholds])
    rw [← (hund ask.key rfl).1, ht]

/-- A step that meets the condition keeps what holds of the asks made. -/
theorem AskStep.asked (h : AskStep names s l s')
    (hr : (listenerLts C Update Metadata).Reachable s.toState) (hP : s.Undisputed names l)
    (ih : ∀ x ask, s.asks x = some ask → s.Asked names x ask) (hask : s'.asks x = some ask) :
    s'.Asked names x ask := by
  cases h with
  | @step l t hst =>
    by_cases hhead : l = .cancel x .head
    · -- The call runs its local part, and notes what it cancels.
      subst hhead
      simp only [AskState.noted, Function.update_self] at hask
      obtain ⟨ask₀, hask₀, rfl⟩ := Option.map_eq_some_iff.1 hask
      obtain ⟨hasks, call, hx, hσ, hkey, _⟩ := ih x ask₀ hask₀
      cases hst with
      | cancel running step =>
        obtain rfl := Option.some.inj (running.symm.trans hx)
        refine ⟨hasks, _, Function.update_self .., hσ, hkey, fun hpc => ?_⟩
        obtain ⟨_, hb, hpending⟩ := step.to_coordinator hpc
        have hP := hP ask₀ hask₀
        refine ⟨Ask.own_look_asks hasks hP.1, ?_⟩
        have hno := hP.2 (hσ ▸ hkey ▸ hpending)
        rwa [Ask.NoOther, ← hb] at hno
    · replace hask := (AskState.noted_of_ne hhead).symm.trans hask
      obtain ⟨hasks, call, hx, hσ, hkey, hn⟩ := ih x ask hask
      refine ⟨hasks, ?_⟩
      by_cases hl : l.actor = some (.cancel x)
      · -- Another step of the call itself, which does not come to the coordinator.
        cases hst with
        | startCancel new | signal new =>
          cases hl
          exact absurd (new.symm.trans hx) nofun
        | cancel running step =>
          cases hl
          obtain rfl := Option.some.inj (running.symm.trans hx)
          refine ⟨_, Function.update_self .., hσ, hkey, fun hpc => ?_⟩
          obtain ⟨rfl, _⟩ := step.to_coordinator hpc
          exact absurd rfl hhead
        | _ => exact absurd hl nofun
      · exact ⟨call, (hst.same_of_ne hl).trans hx, hσ, hkey,
          fun hpc => ⟨(hn hpc).1, hst.noOther hr hl hx hkey hpc (hn hpc).2⟩⟩
  | @ask y σ key messageId sub listener t found hst =>
    cases hst with
    | startCancel new =>
      by_cases hxy : x = y
      · subst hxy
        simp only [Function.update_self, Option.some.injEq] at hask
        subst hask
        exact ⟨(CallbackQueryListener.of_onUnresolved found).2, _, Function.update_self ..,
          rfl, rfl, nofun⟩
      · simp only [Function.update_of_ne hxy] at hask
        obtain ⟨hasks, call, hx, hcall⟩ := ih x ask hask
        exact ⟨hasks, call, (Function.update_of_ne hxy ..).trans hx, hcall⟩

/-- In every run under the condition. -/
theorem asked_of_reachable
    (h : (askLts C Update names).ReachableUnder (fun s l => s.Undisputed names l) s) :
    ∀ x ask, s.asks x = some ask → s.Asked names x ask := by
  refine h.invariant_of_reachable (I := fun s => ∀ x ask, s.asks x = some ask → s.Asked names x ask)
    ?_ fun s l s' hr ih hP hst x ask hask => AskStep.asked hst (reachable_of_askLts hr) hP ih hask
  rintro _ rfl x ask hask
  exact absurd hask nofun

/-- A step of a call by `on_unresolved`, under the condition. -/
theorem AskStep.cancelsOwn {e : CancelEvent} (hst : AskStep names s (.step (.cancel x e)) s')
    (hasked : s.Asked names x ask) (hP : s.Undisputed names (.step (.cancel x e)))
    (hask : s.asks x = some ask) : ask.CancelsOwn names s.shared s'.shared := by
  obtain ⟨_, call, hx, hσ, hkey, hn⟩ := hasked
  cases hst with
  | step hst =>
    cases hst with
    | cancel running step =>
      obtain rfl := Option.some.inj (running.symm.trans hx)
      refine step.cancelsOwn hσ hkey ?_ hn
      rintro rfl
      exact hP ask hask

/-- In every run in which the calls by `on_unresolved` find their key undisputed when they
    run, whatever the other calls do, they cancel listeners of the message of their
    callback only, and spare the registrations of other calls of `listen`. -/
theorem cancelsOwn_of_reachable {e : CancelEvent}
    (h : (askLts C Update names).ReachableUnder (fun s l => s.Undisputed names l) s)
    (hP : s.Undisputed names (.step (.cancel x e)))
    (hst : AskStep names s (.step (.cancel x e)) s') (hask : s.asks x = some ask) :
    ask.CancelsOwn names s.shared s'.shared :=
  hst.cancelsOwn (asked_of_reachable h x ask hask) hP hask

/-! ### Until the call runs -/

/-- The call has not run its local part. -/
def CancelCall.Early (call : CancelCall C Update) : Prop :=
  call.pc = .waitLock ∨ call.pc = .cancelling

/-- The condition on schedules: the listener that `on_unresolved` finds is the one registered,
    if any is, and no call of `listen` registers or stores its listener under the key as long as
    the call for it has not run. -/
def AskState.Unattended (s : AskState C Update Metadata) (names : Metadata → ℤ → Bool) :
    AskLabel C Update Metadata → Prop
  | .ask _ σ key messageId => ∀ sub listener, CallbackQueryListener.onUnresolved names
      (some (s.shared.listeners σ)) key (some messageId) = some (sub, listener) →
        ∀ t, C.current s.shared.backend sub = some t → listener.coordinatorId = some t
  | .step (.listen c e) => e = .register ∨ e = .store → ∀ call x ask xcall,
      s.listens c = some call → s.asks x = some ask → s.cancels x = some xcall →
        xcall.Early → call.key ≠ ask.key
  | _ => True

/-- Nobody but the listener found is under the key of the ask, or registered there. -/
structure Ask.Alone (ask : Ask C Metadata) (m : Shared C Update Metadata) : Prop where
  listeners : ∀ l, m.listeners ask.session ask.key = some l → l = ask.listener
  registry : ∀ t, C.current m.backend ask.key = some t → ask.listener.coordinatorId = some t

omit [DecidableEq Sess] in
theorem Ask.Alone.undisputed {m : Shared C Update Metadata} (h : ask.Alone m)
    (hasks : ask.listener.asks names ask.messageId = true) : ask.Undisputed names m := by
  refine ⟨fun l hl => h.listeners l hl ▸ hasks, fun _ t ht => ?_⟩
  rw [Ask.own, Ask.look]
  cases hl : m.listeners ask.session ask.key with
  | none => exact h.registry t ht
  | some l => exact h.listeners l hl ▸ h.registry t ht

/-- A call that runs finds the key of its ask undisputed, if the listener found is alone. -/
theorem AskStep.undisputed (h : AskStep names s l s')
    (hasked : ∀ x ask, s.asks x = some ask → s.Asked names x ask)
    (ha : ∀ x ask call, s.asks x = some ask → s.cancels x = some call → call.Early →
      ask.Alone s.shared) : s.Undisputed names l := by
  cases h with
  | ask => trivial
  | step hst =>
    cases hst with
    | @cancel x call e _ _ _ running step =>
      cases e with
      | head =>
        intro ask hask
        have he : call.Early := by
          cases step with
          | stale pc | invalid pc | onlyLocal pc | proceed pc => exact .inr pc
        exact (ha x ask call hask running he).undisputed (hasked x ask hask).1
      | _ => trivial
    | _ => trivial

/-- As long as nobody comes to listen on the key of the ask, the listener found stays alone. -/
theorem Step.alone {t t' : State C Update Metadata} {l : Label C Update Metadata}
    (h : Step t l t') (ha : ask.Alone t.shared)
    (hl : ∀ c e call, l = .listen c e → e = .register ∨ e = .store → t.listens c = some call →
      call.key ≠ ask.key) : ask.Alone t'.shared := by
  constructor
  · intro listener hlist
    rcases h.shrinks with hs | ⟨c, call, token, rfl, hc, _, _, hm⟩
    · exact ha.listeners listener (hs.of_some hlist)
    · rw [hm, Shared.setListener_apply,
        if_neg fun hk => hl c _ call rfl (.inr rfl) hc hk.2.symm] at hlist
      exact ha.listeners listener hlist
  · intro token ht
    rcases h.current_cases ht with ht | ⟨c, call, rfl, hc, _, hk, _⟩
    · exact ha.registry token ht
    · exact absurd hk (hl c _ call rfl (.inl rfl) hc)

/-- The only step to a call that has not run is the one that takes the chat lock. -/
theorem CancelCall.Early.of_step {m m' : Shared C Update Metadata} {call : CancelCall C Update}
    {e : CancelEvent} {a : Mutex.Action ℤ} {pc : CancelPc Update}
    (h : CancelCall.Early { call with pc := pc }) (hst : call.Step m e a m' pc) :
    e = .lock ∧ call.Early := by
  cases hst with
  | lock pc => exact ⟨rfl, .inl pc⟩
  | _ => rcases h with h | h <;> cases h

/-- So it does for the asks whose calls have not run. -/
theorem AskStep.alone {call : CancelCall C Update} (h : AskStep names s l s')
    (hP : s.Unattended names l) (hasked : ∀ x ask, s.asks x = some ask → s.Asked names x ask)
    (ih : ∀ x ask call, s.asks x = some ask → s.cancels x = some call → call.Early →
      ask.Alone s.shared)
    (hask : s'.asks x = some ask) (hx : s'.cancels x = some call) (he : call.Early) :
    ask.Alone s'.shared := by
  cases h with
  | @step l t hst =>
    have hstep := hst.cancel_cases hx
    have hne : l ≠ .cancel x .head := by
      rintro rfl
      rcases hstep with ⟨-, hl⟩ | ⟨hnone, -⟩ | ⟨_, e, _, _, _, hl, -, step, rfl⟩
      · exact hl rfl
      · cases hst with
        | cancel running => exact absurd (hnone.symm.trans running) nofun
      · cases hl
        exact absurd (he.of_step step).1 nofun
    have hask₀ := (AskState.noted_of_ne hne).symm.trans hask
    obtain ⟨-, call₀, hx₀, -⟩ := hasked x ask hask₀
    have he₀ : call₀.Early := by
      rcases hstep with ⟨hx', -⟩ | ⟨hnone, -⟩ | ⟨_, _, _, _, hx', -, -, step, rfl⟩
      · exact Option.some.inj (hx'.symm.trans hx₀) ▸ he
      · exact absurd (hnone.symm.trans hx₀) nofun
      · exact Option.some.inj (hx'.symm.trans hx₀) ▸ (he.of_step step).2
    refine hst.alone (ih x ask call₀ hask₀ hx₀ he₀) ?_
    rintro c e lcall rfl hev hc
    exact hP hev lcall x ask call₀ hc hask₀ hx₀ he₀
  | @ask y σ key messageId sub listener t found hst =>
    cases hst with
    | startCancel new =>
      by_cases hxy : x = y
      · subst hxy
        simp only [Function.update_self, Option.some.injEq] at hask
        subst hask
        have hl := (CallbackQueryListener.of_onUnresolved found).1
        exact ⟨fun l hl' => Option.some.inj (hl'.symm.trans hl), hP sub listener found⟩
      · simp only [Function.update_of_ne hxy] at hask hx
        exact ih x ask call hask hx he

/-- In the runs where nobody comes to listen on the key of an ask until the call for it has
    run, the key is undisputed when it does. -/
theorem undisputed_of_unattended
    (h : (askLts C Update names).ReachableUnder (fun s l => s.Unattended names l) s) :
    (askLts C Update names).ReachableUnder (fun s l => s.Undisputed names l) s ∧
      ∀ x ask call, s.asks x = some ask → s.cancels x = some call → call.Early →
        ask.Alone s.shared := by
  refine h.invariant (I := fun s =>
    (askLts C Update names).ReachableUnder (fun s l => s.Undisputed names l) s ∧
      ∀ x ask call, s.asks x = some ask → s.cancels x = some call → call.Early →
        ask.Alone s.shared) ?_ ?_
  · rintro _ rfl
    exact ⟨.init rfl, fun _ _ _ h => absurd h nofun⟩
  · rintro s l s' ⟨hr, ih⟩ hP hst
    have hasked := asked_of_reachable hr
    refine ⟨hr.tail ?_ hst, fun x ask call hask hx he => hst.alone hP hasked ih hask hx he⟩
    exact hst.undisputed hasked ih

/-- In such runs, the calls by `on_unresolved` cancel the listeners they are for. -/
theorem cancelsOwn_of_unattended {e : CancelEvent}
    (h : (askLts C Update names).ReachableUnder (fun s l => s.Unattended names l) s)
    (hst : AskStep names s (.step (.cancel x e)) s') (hask : s.asks x = some ask) :
    ask.CancelsOwn names s.shared s'.shared := by
  obtain ⟨hr, ha⟩ := undisputed_of_unattended h
  have hasked := asked_of_reachable hr
  exact hst.cancelsOwn (hasked x ask hask) (hst.undisputed hasked ha) hask

/-! ### Examples -/

/-- The runs of the message listeners are runs with the calls made by `on_unresolved`. -/
theorem run_askLts {t t' : State C Update Metadata}
    {Q : State C Update Metadata → Label C Update Metadata → Prop}
    {asks : CallId → Option (Ask C Metadata)}
    (h : (listenerLts C Update Metadata).RunUnder Q t t')
    (hP : ∀ s l, Q s.toState l → P s (.step l) ∧ ∀ x, l ≠ .cancel x .head) :
    (askLts C Update names).RunUnder P ⟨t, asks⟩ ⟨t', asks⟩ := by
  induction h with
  | refl => exact .refl
  | @tail t₁ _ l _ hq hst ih =>
    obtain ⟨hp, hne⟩ := hP ⟨t₁, asks⟩ l hq
    have hasks : (AskState.mk t₁ asks).noted l = asks := funext fun x => AskState.noted_of_ne (hne x)
    have h := ih.tail hp (.step hst)
    rwa [hasks] at h

/-- The listener of an ask is cancelled by a button of its message. -/
theorem cancelsOwn_of_reachable_button :
    ∃ (s s' : AskState memoryCoordinator Unit ℤ) (ask : Ask memoryCoordinator ℤ),
      (askLts memoryCoordinator Unit fun metadata id => metadata = id).ReachableUnder
        (fun s l => s.Undisputed (fun metadata id => metadata = id) l) s ∧
      s.shared.futures 0 = .pending ∧ s'.shared.futures 0 ≠ .pending ∧
      ask.CancelsOwn (fun metadata id => metadata = id) s.shared s'.shared := by
  have h₀ : (askLts memoryCoordinator Unit fun metadata id => metadata = id).ReachableUnder
      (fun s l => s.Undisputed (fun metadata id => metadata = id) l)
      ⟨.init .., fun _ => none⟩ := .init rfl
  have h₁ := h₀.run (run_askLts (run_listen (P := fun _ l => l.ListensAlone 0) 0 ()
    ⟨100, none, none⟩ (some (5 : ℤ)) .replace (fun _ _ _ h => h) rfl rfl rfl rfl rfl)
    fun s l hl => ⟨by cases l <;> trivial, by rintro x rfl; exact hl⟩)
  have h₂ := h₁.tail (l := AskLabel.ask 0 () ⟨100, some 7, some 5⟩ 5) trivial
    (.ask (CallbackQueryListener.onUnresolved_chat 100 7 5 (by decide) rfl rfl rfl rfl rfl)
      (.startCancel rfl))
  have h₃ := h₂.tail (l := AskLabel.step (.cancel 0 .lock)) trivial
    (.step (.cancel rfl (.lock rfl) rfl))
  obtain ⟨s, h, hask, hcall, hl, hf, hcur⟩ : ∃ s : AskState memoryCoordinator Unit ℤ,
      (askLts memoryCoordinator Unit fun metadata id => metadata = id).ReachableUnder
        (fun s l => s.Undisputed (fun metadata id => metadata = id) l) s ∧
      s.asks 0 =
        some ⟨(), ⟨100, none, none⟩, 5, ⟨⟨100, none, none⟩, some 5, 0, some (0 : ℕ)⟩, none⟩ ∧
      s.cancels 0 = some ⟨(), ⟨100, none, none⟩, true, false, none, false, .cancelling⟩ ∧
      s.shared.listeners () ⟨100, none, none⟩ =
        some ⟨⟨100, none, none⟩, some 5, 0, some (0 : ℕ)⟩ ∧ s.shared.futures 0 = .pending ∧
      memoryCoordinator.current s.shared.backend ⟨100, none, none⟩ = some (0 : ℕ) :=
    ⟨_, h₃, rfl, rfl, rfl, rfl, rfl⟩
  have hhead : (s.shared.cancel () ⟨100, none, none⟩ false none).2 = .proceed := by
    simp [Shared.cancel, hl, hf, Future.done]
  have hst : AskStep (fun metadata id => metadata = id) s (.step (.cancel 0 .head)) _ :=
    .step (.cancel hcall (.proceed rfl rfl hhead) trivial)
  refine ⟨s, _, _, h, hf, ?_, cancelsOwn_of_reachable h ?_ hst hask⟩
  · simp [Shared.cancel, hl, hf, Future.done]
  · intro ask hask'
    obtain rfl := Option.some.inj (hask.symm.trans hask')
    refine ⟨fun l hl' => Option.some.inj (hl.symm.trans hl') ▸ rfl, fun _ t ht => ?_⟩
    rw [Ask.own, Ask.look, hl]
    exact hcur.symm.trans ht

/-- While a call of `resolve` awaits its bypass hook, holding the chat lock, a call of
    `listen` without metadata comes, and then a callback on the message 5: `on_unresolved`
    finds the ask of this message. The update is delivered to the ask, and the locks are
    given in turn: the call of `listen` registers, and the call of `cancel` then cancels it,
    and revokes its registration. -/
theorem button_cancels_another :
    ∃ (s s₁ s₂ : AskState memoryCoordinator Unit ℤ) (ask ask₁ : Ask memoryCoordinator ℤ),
      (askLts memoryCoordinator Unit fun metadata id => metadata = id).Reachable s ∧
      s.asks 0 = some ask ∧
      AskStep (fun metadata id => metadata = id) s (.step (.cancel 0 .head)) s₁ ∧
      ¬ask.CancelsOwn (fun metadata id => metadata = id) s.shared s₁.shared ∧
      s₁.asks 0 = some ask₁ ∧
      AskStep (fun metadata id => metadata = id) s₁ (.step (.cancel 0 .coordinator)) s₂ ∧
      ¬ask₁.CancelsOwn (fun metadata id => metadata = id) s₁.shared s₂.shared := by
  have h₀ : (askLts memoryCoordinator Unit fun metadata id => metadata = id).Reachable
      ⟨.init .., fun _ => none⟩ := .init rfl
  have h₁ := h₀.run (run_askLts (run_listen (P := fun _ l => l.ListensAlone 0) 0 ()
    ⟨100, none, none⟩ (some (5 : ℤ)) .replace (fun _ _ _ h => h) rfl rfl rfl rfl rfl)
    fun s l hl => ⟨trivial, by rintro x rfl; exact hl⟩)
  have h₂ := h₁.run (run_askLts (run_resolve_of_append
    (P := fun _ l => l.Resolves 0 ⟨100, some 7, some 9⟩) 0 () ()
    [⟨100, some 7, some 9⟩, ⟨100, some 7, none⟩, ⟨100, none, some 9⟩]
    (fun _ _ _ h => h) rfl rfl (ListenerKey.subKeys_full 100 7 9)
    (by simp only [List.forall_mem_cons]; exact ⟨rfl, rfl, rfl, List.forall_mem_nil _⟩) rfl rfl)
    fun s l hl => ⟨trivial, by rintro x rfl; exact hl⟩)
  -- Both calls wait for the lock, first that of `listen`.
  have h₃ := h₂.tail (l := AskLabel.step (.startListen 1 () ⟨100, none, none⟩ none .replace))
    trivial (.step (.startListen rfl))
  have h₄ := h₃.tail (l := AskLabel.ask 0 () ⟨100, some 7, some 5⟩ 5) trivial
    (.ask (CallbackQueryListener.onUnresolved_chat 100 7 5 (by decide) rfl rfl rfl rfl rfl)
      (.startCancel rfl))
  -- The ask is answered.
  have h₅ := h₄.tail (l := AskLabel.step (.resolve 0 (.bypass (some false)))) trivial
    (.step (.resolve rfl (.deliver rfl rfl) trivial))
  have h₆ := h₅.tail (l := AskLabel.step (.listen 0 .callback)) trivial
    (.step (.listen rfl (.callback rfl) trivial))
  -- The call of `listen` goes through its critical section.
  have h₇ := h₆.tail (l := AskLabel.step (.listen 1 .lock)) trivial
    (.step (.listen rfl (.lock rfl) rfl))
  have h₈ := h₇.tail (l := AskLabel.step (.listen 1 .lookup)) trivial
    (.step (.listen rfl (.lookup rfl) trivial))
  have h₉ := h₈.tail (l := AskLabel.step (.listen 1 .looked)) trivial
    (.step (.listen rfl (.replace rfl rfl rfl) trivial))
  have h₁₀ := h₉.tail (l := AskLabel.step (.listen 1 .replace)) trivial
    (.step (.listen rfl (.replaced rfl) trivial))
  have h₁₁ := h₁₀.tail (l := AskLabel.step (.listen 1 .register)) trivial
    (.step (.listen rfl (.register rfl rfl) trivial))
  have h₁₂ := h₁₁.tail (l := AskLabel.step (.listen 1 .store)) trivial
    (.step (.listen rfl (.store rfl) trivial))
  have h₁₃ := h₁₂.tail (l := AskLabel.step (.cancel 0 .lock)) trivial
    (.step (.cancel rfl (.lock rfl) rfl))
  refine ⟨_, _, _, _, _, h₁₃, rfl, .step (.cancel rfl (.proceed rfl rfl rfl) trivial), fun h => ?_,
    rfl, .step (.cancel rfl (.coordinator rfl) trivial), fun h => ?_⟩
  · exact Bool.false_ne_true (h.listeners () ⟨100, none, none⟩ _ rfl fun h => by cases h)
  · exact Bool.false_ne_true (h.registry ⟨100, none, none⟩ (1 : ℕ) rfl fun h => by cases h).2

end Pyroflow
