import Pyroflow.Coordinator.Memory
import Pyroflow.Listener.Runs
import Pyroflow.Listener.Shared

/-!
# Message listeners

`MessageListener`: which messages it listens to (`Message.isListenable`), and the key it
extracts from one (`Message.extractKey`). The two do not agree on the sender: a message
without one, such as a channel post, is listenable, and has no key.

A listener on the whole chat is the last candidate of a message. One call of `resolve`
that runs alone gets to it if the message has a sender and no listener is left under the
other candidates; a listener that is left there but done makes the call raise
(`chat_listener_receives_iff`).
-/

namespace Pyroflow

/-! ### Messages -/

/-- A `User`, as far as `MessageListener` reads it. -/
structure User where
  id : ℤ
  isSelf : Bool := false
  deriving DecidableEq

/-- A `Message`, as far as `MessageListener` reads it: of the fields that it only tests, the
    truth values, and of its chat the id. -/
structure Message where
  id : ℤ
  chat : Option ℤ
  fromUser : Option User
  outgoing : Bool := false
  service : Bool := false
  empty : Bool := false
  editDate : Bool := false
  editHidden : Bool := false
  deriving DecidableEq

namespace Message

variable (update : Message)

/-- `MessageListener._is_listenable`. -/
def isListenable : Bool :=
  !(update.outgoing || update.service || update.fromUser.any User.isSelf || update.empty ||
    update.editDate || update.editHidden || update.chat.isNone)

/-- `MessageListener._extract_key`: `none` when it raises `AttributeError`. -/
def extractKey : Option ListenerKey := do
  let chat ← update.chat
  let fromUser ← update.fromUser
  return ⟨chat, some fromUser.id, some update.id⟩

/-- The key of the message in a chat, with its sender if it has one. -/
def keyIn (chat : ℤ) : ListenerKey := ⟨chat, update.fromUser.map User.id, some update.id⟩

variable {update} {chat : ℤ}

/-- The key is extracted from a message that has a sender. -/
theorem extractKey_eq_some (hchat : update.chat = some chat) {key : ListenerKey}
    (h : update.extractKey = some key) : update.fromUser ≠ none ∧ key = update.keyIn chat := by
  simp only [extractKey, keyIn, hchat] at h ⊢
  cases hu : update.fromUser with
  | none =>
    rw [hu] at h
    exact absurd h nofun
  | some fromUser =>
    rw [hu] at h
    exact ⟨nofun, (Option.some.inj h).symm⟩

/-- It raises on a message without one. -/
theorem extractKey_eq_none (hchat : update.chat = some chat) (h : update.extractKey = none) :
    update.fromUser = none := by
  simp only [extractKey, hchat] at h
  cases hu : update.fromUser with
  | none => rfl
  | some fromUser =>
    rw [hu] at h
    exact absurd h nofun

/-- The listener on the whole chat comes last among the candidates of a message with a
    sender. -/
theorem eq_nil_of_suffix {fromUser : User} (h : update.fromUser = some fromUser)
    {subs : List ListenerKey} (hs : ⟨chat, none, none⟩ :: subs <:+ (update.keyIn chat).subKeys) :
    subs = [] := by
  rw [keyIn, h, Option.map_some, ListenerKey.subKeys_full] at hs
  simpa [List.suffix_cons_iff] using hs

end Message

/-! ### What a call does with a message -/

section Course

variable {Sess : Type} {C : ListenerCoordinator Sess} {Metadata : Type}
  (m : Shared C Message Metadata) (σ : Sess) (r : CallId) (update : Message) (chat : ℤ)
  (l : ListenerModel C.Token Metadata)

/-- The session waits for the whole chat: the listener is pending and registered, and none
    is pending under a more specific key of the message. -/
structure Shared.WaitsForChat : Prop where
  found : m.listeners σ ⟨chat, none, none⟩ = some l
  pending : m.futures l.future = .pending
  registered : C.registered m.backend σ ⟨chat, none, none⟩ l.coordinatorId = true
  others : ∀ sub ∈ (update.keyIn chat).subKeys, sub ≠ ⟨chat, none, none⟩ →
    ∀ l', m.listeners σ sub = some l' → m.futures l'.future ≠ .pending

/-- The message has a sender, and no listener is left under a more specific key. -/
def Shared.Receivable : Prop :=
  update.fromUser ≠ none ∧ ∀ sub ∈ (update.keyIn chat).subKeys, sub ≠ ⟨chat, none, none⟩ →
    m.listeners σ sub = none

/-- The candidates of a key that are left are the last ones, and there is no listener under
    the others. -/
structure Shared.Passed (key : ListenerKey) (subs : List ListenerKey) : Prop where
  suffix : subs <:+ key.subKeys
  passed : ∀ sub ∈ key.subKeys, sub ∉ subs → m.listeners σ sub = none

/-- What the call has done so far, from `m` on: nothing, until it delivers the message or
    raises. -/
def ResolveCall.MessageCourse (call : ResolveCall C Message Metadata)
    (m' : Shared C Message Metadata) : Prop :=
  call.session = σ ∧ call.update = update ∧
  match call.pc with
  | .listenable | .extracting => m' = m
  | .waitLock key => m' = m ∧ update.fromUser ≠ none ∧ key = update.keyIn chat
  | .scanning _ subs => m' = m ∧ update.fromUser ≠ none ∧ m.Passed σ (update.keyIn chat) subs
  | .checking _ sub l' subs => m' = m ∧ update.fromUser ≠ none ∧
      m.Passed σ (update.keyIn chat) (sub :: subs) ∧ m.listeners σ sub = some l'
  | .checked _ sub l' subs registered => m' = m ∧ update.fromUser ≠ none ∧
      m.Passed σ (update.keyIn chat) (sub :: subs) ∧ m.listeners σ sub = some l' ∧
      registered = C.registered m.backend σ sub l'.coordinatorId
  | .bypassing _ sub l' => m' = m ∧ update.fromUser ≠ none ∧
      (∃ subs, m.Passed σ (update.keyIn chat) (sub :: subs)) ∧ m.listeners σ sub = some l'
  | .bypassed .. | .unresolved _ => False
  | .ended o => m.Receivable σ update chat ∧ o = .returned () ∧
        m' = m.complete l.future (.result update r) ∨
      ¬m.Receivable σ update chat ∧ ∃ exc, o = .raised exc

/-- The events of a call for the message: its hooks answer as those of `MessageListener` do,
    without bypass, and it is not cancelled. -/
def ResolveEvent.AnswersMessage : ResolveEvent → Prop
  | .listenable answer => answer = some update.isListenable
  | .key answer => answer = update.extractKey
  | .bypass answer => answer = some false
  | .interrupt => False
  | _ => True

variable {m σ r update chat l} {key sub : ListenerKey} {subs : List ListenerKey}
  {l' : ListenerModel C.Token Metadata}

/-- A candidate without a listener is passed. -/
theorem Shared.Passed.skip (h : m.Passed σ key (sub :: subs)) (hn : m.listeners σ sub = none) :
    m.Passed σ key subs := by
  refine ⟨(List.suffix_cons sub subs).trans h.suffix, fun sub' hmem hsubs => ?_⟩
  by_cases hsub : sub' = sub
  · rw [hsub, hn]
  · exact h.passed sub' hmem (List.not_mem_cons_of_ne_of_not_mem hsub hsubs)

theorem Message.chat_mem_subKeys (hu : update.fromUser ≠ none) :
    ⟨chat, none, none⟩ ∈ (update.keyIn chat).subKeys := by
  obtain ⟨fromUser, hu⟩ := Option.ne_none_iff_exists'.1 hu
  simp [keyIn, hu, ListenerKey.subKeys_full]

/-- At the listener on the whole chat, there was none under the other candidates. -/
theorem Shared.Passed.receivable (h : m.Passed σ (update.keyIn chat) (⟨chat, none, none⟩ :: subs))
    (hu : update.fromUser ≠ none) : m.Receivable σ update chat := by
  refine ⟨hu, fun sub hmem hne => h.passed sub hmem ?_⟩
  obtain ⟨fromUser, hu⟩ := Option.ne_none_iff_exists'.1 hu
  rw [Message.eq_nil_of_suffix hu h.suffix]
  exact fun hsub => hne (List.mem_singleton.1 hsub)

/-- The scan does not come to its end. -/
theorem Shared.WaitsForChat.not_passed (hw : m.WaitsForChat σ update chat l)
    (hu : update.fromUser ≠ none) : ¬m.Passed σ (update.keyIn chat) [] := by
  intro h
  have := h.passed _ (Message.chat_mem_subKeys hu) List.not_mem_nil
  exact absurd (this.symm.trans hw.found) nofun

/-- The listener of a candidate is the one on the whole chat, or it is done, and in the way. -/
theorem Shared.WaitsForChat.found_cases (hw : m.WaitsForChat σ update chat l)
    (hu : update.fromUser ≠ none) (h : m.Passed σ (update.keyIn chat) (sub :: subs))
    (hl : m.listeners σ sub = some l') :
    sub = ⟨chat, none, none⟩ ∧ l' = l ∧ m.Receivable σ update chat ∨
      m.futures l'.future ≠ .pending ∧ ¬m.Receivable σ update chat := by
  by_cases hsub : sub = ⟨chat, none, none⟩
  · subst hsub
    exact .inl ⟨rfl, Option.some.inj (hl.symm.trans hw.found), h.receivable hu⟩
  · have hmem := h.suffix.subset List.mem_cons_self
    refine .inr ⟨hw.others sub hmem hsub l' hl, fun hr => ?_⟩
    exact absurd ((hr.2 sub hmem hsub).symm.trans hl) nofun

variable [DecidableEq Sess] {call : ResolveCall C Message Metadata}
  {m₁ m' : Shared C Message Metadata} {e : ResolveEvent} {a : Mutex.Action ℤ}
  {pc : ResolvePc C.Token Message Metadata}

/-- A step keeps to the course. -/
theorem ResolveCall.Step.messageCourse (hst : call.Step r m₁ e a m' pc)
    (he : e.AnswersMessage update) (hchat : update.chat = some chat)
    (hlist : update.isListenable = true) (hw : m.WaitsForChat σ update chat l)
    (h : call.MessageCourse m σ r update chat l m₁) :
    ResolveCall.MessageCourse m σ r update chat l { call with pc := pc } m' := by
  obtain ⟨rfl, rfl, h⟩ := h
  refine ⟨rfl, rfl, ?_⟩
  -- Up to the end nothing changes. A listener that is found gets the message or is done.
  cases hst with
  | listenable pc =>
    simp only [pc] at h ⊢
    exact h
  | notListenable pc =>
    rw [ResolveEvent.AnswersMessage, hlist] at he
    exact absurd he nofun
  | listenableRaises => exact absurd he nofun
  | key pc =>
    simp only [pc] at h ⊢
    obtain ⟨hu, hkey⟩ := Message.extractKey_eq_some hchat he.symm
    exact ⟨h, hu, hkey⟩
  | noListeners pc listeners =>
    simp only [pc] at h
    subst h
    exact absurd ((congrFun listeners _).symm.trans hw.found) nofun
  | keyRaises pc =>
    exact .inr ⟨fun hr => hr.1 (Message.extractKey_eq_none hchat he.symm), _, rfl⟩
  | lock pc =>
    simp only [pc] at h ⊢
    obtain ⟨rfl, hu, rfl⟩ := h
    exact ⟨rfl, hu, List.suffix_refl _, fun sub hmem hn => absurd hmem hn⟩
  | scanNone pc none =>
    simp only [pc] at h ⊢
    obtain ⟨rfl, hu, hp⟩ := h
    exact ⟨rfl, hu, hp.skip none⟩
  | scan pc some =>
    simp only [pc] at h ⊢
    obtain ⟨rfl, hu, hp⟩ := h
    exact ⟨rfl, hu, hp, some⟩
  | scanned pc =>
    simp only [pc] at h
    exact absurd h.2.2 (hw.not_passed h.2.1)
  | check pc =>
    simp only [pc] at h ⊢
    obtain ⟨rfl, hu, hp, hl⟩ := h
    exact ⟨rfl, hu, hp, hl, rfl⟩
  | owned pc =>
    simp only [pc] at h ⊢
    obtain ⟨rfl, hu, hp, hl, _⟩ := h
    exact ⟨rfl, hu, ⟨_, hp⟩, hl⟩
  | superseded pc head =>
    simp only [pc] at h
    obtain ⟨rfl, hu, hp, hl, hreg⟩ := h
    rcases hw.found_cases hu hp hl with ⟨rfl, rfl, _⟩ | ⟨hd, _⟩
    · exact absurd (hreg.trans hw.registered) Bool.false_ne_true
    · exact absurd (Shared.cancel_invalid_iff.2 ⟨_, hl, .inr rfl, hd⟩) head
  | supersededInvalid pc head =>
    simp only [pc] at h ⊢
    obtain ⟨rfl, hu, hp, hl, hreg⟩ := h
    rcases hw.found_cases hu hp hl with ⟨rfl, rfl, _⟩ | ⟨_, hr⟩
    · exact absurd (hreg.trans hw.registered) Bool.false_ne_true
    · exact .inr ⟨hr, _, rfl⟩
  | deliver pc pending =>
    simp only [pc] at h ⊢
    obtain ⟨rfl, hu, ⟨_, hp⟩, hl⟩ := h
    rcases hw.found_cases hu hp hl with ⟨_, rfl, hr⟩ | ⟨hd, _⟩
    · exact .inl ⟨hr, trivial, rfl⟩
    · exact absurd pending hd
  | deliverInvalid pc done =>
    simp only [pc] at h ⊢
    obtain ⟨rfl, hu, ⟨_, hp⟩, hl⟩ := h
    rcases hw.found_cases hu hp hl with ⟨_, rfl, hr⟩ | ⟨_, hr⟩
    · exact absurd hw.pending done
    · exact .inr ⟨hr, _, rfl⟩
  | bypassed pc | unresolved pc =>
    simp only [pc] at h
  | bypassRaises | bypass | bypassStale | bypassInvalid => exact absurd he nofun
  | interrupt | interruptBypass => exact he.elim

end Course

/-! ### The runs of one call -/

section Runs

variable {Sess : Type} [DecidableEq Sess] {C : ListenerCoordinator Sess} {Metadata : Type}
  {s : State C Message Metadata} {σ : Sess} {r : CallId} {update : Message} {chat : ℤ}
  {l : ListenerModel C.Token Metadata}

/-- With the chat lock free, the call comes to its end. -/
theorem exists_run_message (hr : s.resolves r = none) (hchat : update.chat = some chat)
    (hlist : update.isListenable = true) (hne : s.shared.listeners σ ≠ fun _ => none)
    (hfree : s.locked chat = false) :
    ∃ s' call o, RunsBy σ r update (ResolveEvent.AnswersMessage update) s s' ∧
      s'.resolves r = some call ∧ call.pc = .ended o := by
  cases hkey : update.extractKey with
  | some key =>
    obtain ⟨_, rfl⟩ := Message.extractKey_eq_some hchat hkey
    have hA : ResolveEvent.Covers (ResolveEvent.AnswersMessage update) (update.keyIn chat) false :=
      ⟨congrArg some hlist.symm, hkey.symm, trivial, trivial, trivial, trivial, rfl, trivial,
        trivial⟩
    exact exists_run_of_covers hA hr hne hfree
  | none =>
    have h₁ : RunsBy σ r update (ResolveEvent.AnswersMessage update) s _ :=
      Lts.RunUnder.refl.tail .start (.startResolve hr)
    have h₂ := h₁.tail (l := Label.resolve r (.listenable (some true)))
      (.resolve (congrArg some hlist.symm))
      (.resolve (Function.update_self ..) (.listenable rfl) trivial)
    have h₃ := h₂.tail (l := Label.resolve r (.key none)) (.resolve hkey.symm)
      (.resolve (Function.update_self ..) (.keyRaises rfl) trivial)
    exact ⟨_, _, _, h₃, Function.update_self .., rfl⟩

/-- When it has ended, it has delivered the message to the listener, or raised. -/
theorem message_ended (hr : s.resolves r = none) (hchat : update.chat = some chat)
    (hlist : update.isListenable = true) (hw : s.shared.WaitsForChat σ update chat l)
    {s' : State C Message Metadata} {call : ResolveCall C Message Metadata}
    {o : Outcome Message Unit}
    (hrun : RunsBy σ r update (ResolveEvent.AnswersMessage update) s s')
    (hcall : s'.resolves r = some call) (hpc : call.pc = .ended o) :
    s.shared.Receivable σ update chat ∧ o = .returned () ∧
        s'.shared = s.shared.complete l.future (.result update r) ∨
      ¬s.shared.Receivable σ update chat ∧ ∃ exc, o = .raised exc := by
  have hcourse := resolve_of_run
    (I := fun call m => call.MessageCourse s.shared σ r update chat l m) hr ⟨rfl, rfl, rfl⟩
    (fun _ _ _ _ _ _ hst he h => hst.messageCourse he hchat hlist hw h) hrun hcall
  have hend := hcourse.2.2
  rw [hpc] at hend
  exact hend

/-- A chat-wide listener receives exactly the receivable messages. Where a session waits for
    the whole chat, a call of `resolve` for a listenable message of the chat, without bypass
    and running alone, comes to its end once the chat lock is free, and when it has, it has
    returned and the listener's future holds the message, if and only if the message has a
    sender, and no listener that is done is left under a more specific key. -/
theorem chat_listener_receives_iff (s : State C Message Metadata) (σ : Sess) (r : CallId)
    (update : Message) (chat : ℤ) (l : ListenerModel C.Token Metadata)
    (hr : s.resolves r = none) (hchat : update.chat = some chat)
    (hlist : update.isListenable = true) (hw : s.shared.WaitsForChat σ update chat l) :
    (s.locked chat = false → ∃ s' call o,
      RunsBy σ r update (ResolveEvent.AnswersMessage update) s s' ∧
        s'.resolves r = some call ∧ call.pc = .ended o) ∧
    ∀ s' call o, RunsBy σ r update (ResolveEvent.AnswersMessage update) s s' →
      s'.resolves r = some call → call.pc = .ended o →
      (o = .returned () ∧ s'.shared.futures l.future = .result update r ↔
        s.shared.Receivable σ update chat) := by
  have hne : s.shared.listeners σ ≠ fun _ => none := fun h =>
    absurd ((congrFun h _).symm.trans hw.found) nofun
  refine ⟨exists_run_message hr hchat hlist hne, fun s' call o hrun hcall hpc => ?_⟩
  rcases message_ended hr hchat hlist hw hrun hcall hpc with ⟨hrec, rfl, hm⟩ | ⟨hrec, exc, rfl⟩
  · exact iff_of_true ⟨rfl, by rw [hm, Shared.complete_futures, Function.update_self]⟩ hrec
  · exact iff_of_false (fun h => absurd h.1 nofun) hrec

end Runs

/-- A session that waits for the chat `-100`, and nothing else. -/
theorem exists_waits_for_chat (update : Message) :
    ∃ s : State memoryCoordinator Message Unit, ∃ l,
      (listenerLts memoryCoordinator Message Unit).Reachable s ∧
      s.shared.WaitsForChat () update (-100) l ∧ s.locked (-100) = false ∧ s.resolves 0 = none ∧
      ∀ sub, sub ≠ ⟨-100, none, none⟩ → s.shared.listeners () sub = none := by
  have h₀ : (listenerLts memoryCoordinator Message Unit).Reachable (.init ..) := .init rfl
  have h₁ := h₀.run (run_listen 0 () ⟨-100, none, none⟩ none .reject (fun _ _ _ _ => trivial)
    rfl rfl rfl rfl rfl)
  refine ⟨_, _, h₁, ⟨rfl, rfl, rfl, fun sub _ hsub l' hl' => ?_⟩, rfl, rfl, fun sub hsub => ?_⟩
  · rw [Shared.setListener_apply, if_neg fun h => hsub h.2] at hl'
    exact absurd hl' nofun
  · rw [Shared.setListener_apply, if_neg fun h => hsub h.2]
    rfl

/-- A message of a user gets to the listener on the whole chat. -/
theorem chat_listener_receives_iff_sender : ∃ s : State memoryCoordinator Message Unit, ∃ c,
    s.shared.futures c =
      .result { id := 5, chat := some (-100), fromUser := some { id := 7 } } 0 := by
  obtain ⟨s, l, _, hw, hfree, hr, hn⟩ :=
    exists_waits_for_chat { id := 5, chat := some (-100), fromUser := some { id := 7 } }
  obtain ⟨hrun, hend⟩ := chat_listener_receives_iff s () 0 _ (-100) l hr rfl rfl hw
  obtain ⟨s', call, o, hrun, hcall, hpc⟩ := hrun hfree
  exact ⟨s', l.future, ((hend s' call o hrun hcall hpc).2 ⟨nofun, fun sub _ => hn sub⟩).2⟩

/-- A post in a channel has no sender. -/
def channelPost : Message where
  id := 5
  chat := some (-100)
  fromUser := none

/-- A channel post is listenable, and `resolve` raises on it. -/
theorem channel_post_raises : ∃ s s' : State memoryCoordinator Message Unit, ∃ l call exc,
    channelPost.isListenable = true ∧ (listenerLts memoryCoordinator Message Unit).Reachable s ∧
      s.shared.WaitsForChat () channelPost (-100) l ∧
      RunsBy () 0 channelPost (ResolveEvent.AnswersMessage channelPost) s s' ∧
      s'.resolves 0 = some call ∧ call.pc = .ended (.raised exc) := by
  obtain ⟨s, l, h, hw, hfree, hr, _⟩ := exists_waits_for_chat channelPost
  have hne : s.shared.listeners () ≠ fun _ => none := fun hn =>
    absurd ((congrFun hn _).symm.trans hw.found) nofun
  have hlist : channelPost.isListenable = true := by decide
  obtain ⟨s', call, o, hrun, hcall, hpc⟩ := exists_run_message hr rfl hlist hne hfree
  rcases message_ended hr rfl hlist hw hrun hcall hpc with ⟨hrec, _⟩ | ⟨_, exc, rfl⟩
  · exact absurd rfl hrec.1
  · exact ⟨s, s', l, call, exc, hlist, h, hw, hrun, hcall, hpc⟩

end Pyroflow
