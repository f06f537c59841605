import Pyroflow.Coordinator.Codec

/-!
# The cancel listener

`_listen_for_cancel_signals` reads the messages of the cancel channel one after
the other, and dispatches a cancel for each payload. The first exception ends it:
no later signal is received (`listenForCancelSignals`).

It applies the signals among the messages, and nothing else (`Applied`), exactly
when every message is sound (`listen_applies_iff`): a payload, or a text with
nothing before its last separator, which is all that is checked. Bytes that are
not UTF-8, and other texts with a separator in them, end it (`listen_killed`), or
dispatch the cancel of a key that was never packed.
-/

namespace Pyroflow

open PyStr

namespace RedisListenerCoordinator

/-- The data of a message: bytes, or text where the client decodes responses. -/
inductive Data
  | text (l : List Char)
  | bytes (b : ByteArray)

/-- The text of the data; `none` when `decode` raises. -/
def Data.decode : Data → Option (List Char)
  | .text l => some l
  | .bytes b => b.utf8Decode?.map Array.toList

/-- What `pubsub.listen` yields. -/
inductive Message
  | message (data : Data)
  /-- A message of another type: the confirmation of a subscription. -/
  | other

/-- What the loop makes of a message. -/
def Message.signal : Message → Signal
  | .message data =>
    match data.decode with
    | some text => readPayload text
    | none => .raised
  | .other => .skipped

/-- `_listen_for_cancel_signals`: the cancels it dispatches, and whether it ends
    with an exception. -/
def listenForCancelSignals : List Message → List (List (Option ℤ) × List Char) × Bool
  | [] => ([], false)
  | msg :: msgs =>
    match msg.signal with
    | .skipped => listenForCancelSignals msgs
    | .cancel key coordinatorId =>
      ((key, coordinatorId) :: (listenForCancelSignals msgs).1, (listenForCancelSignals msgs).2)
    | .raised => ([], true)

/-! ### What it should do -/

/-- The message carries a payload: a packed key, the separator and a token. -/
def Message.Carries (updateTypeName : List Char) (msg : Message) (key : ListenerKey)
    (token : List Char) : Prop :=
  ∃ data packedKey, msg = .message data ∧ packKey updateTypeName key = some packedKey ∧
    sep ∉ token ∧ data.decode = some (payload packedKey token)

/-- The signals among the messages, in order. -/
inductive Applied (updateTypeName : List Char) :
    List Message → List (ListenerKey × List Char) → Prop
  | nil : Applied updateTypeName [] []
  | skip {msg msgs signals} (h : ∀ key token, ¬msg.Carries updateTypeName key token)
      (ha : Applied updateTypeName msgs signals) : Applied updateTypeName (msg :: msgs) signals
  | apply {msg key token msgs signals} (h : msg.Carries updateTypeName key token)
      (ha : Applied updateTypeName msgs signals) :
      Applied updateTypeName (msg :: msgs) ((key, token) :: signals)

/-- The message is one the loop copes with: its data decodes, to a payload or to a
    text with nothing before its last separator. -/
def Message.Sound (updateTypeName : List Char) : Message → Prop
  | .message data => (∃ key token, Carries updateTypeName (.message data) key token) ∨
      ∃ text, data.decode = some text ∧ (rpartition sep text).1 = []
  | .other => True

/-! ### What it does -/

variable {updateTypeName : List Char} {msg : Message} {msgs : List Message} {key : ListenerKey}
  {token : List Char}

/-- A payload dispatches its cancel. -/
theorem Message.Carries.signal (h : ∀ c ∈ updateTypeName, c ≠ sep ∧ c ≠ '{' ∧ c ≠ '}')
    (hc : msg.Carries updateTypeName key token) : msg.signal = .cancel key.toTuple token := by
  obtain ⟨data, packedKey, rfl, hpack, ht, hdecode⟩ := hc
  rw [packKey_eq fun c hc => (h c hc).2, Option.some_inj] at hpack
  subst hpack
  rw [Message.signal, hdecode]
  exact readPayload_packed (fun hmem => (h sep hmem).1 rfl) ht

/-- A text is skipped for one reason only. -/
theorem readPayload_eq_skipped {text : List Char} :
    readPayload text = .skipped ↔ (rpartition sep text).1 = [] := by
  rcases hp : rpartition sep text with ⟨packedKey, coordinatorId⟩
  simp only [readPayload, hp]
  by_cases h : packedKey = []
  · simp [h]
  · rw [if_neg h, iff_false_right h]
    split <;> simp

theorem Message.Sound.skipped_or_carries (h : msg.Sound updateTypeName) :
    msg.signal = .skipped ∨ ∃ key token, msg.Carries updateTypeName key token := by
  rcases msg with data | _
  · obtain hc | ⟨text, hdecode, hhead⟩ := h
    · exact .inr hc
    · left
      rw [Message.signal, hdecode]
      exact readPayload_eq_skipped.2 hhead
  · exact .inl rfl

theorem Message.sound_of_skipped (h : msg.signal = .skipped) : msg.Sound updateTypeName := by
  rcases msg with data | _
  · rw [Message.signal] at h
    split at h
    · exact .inr ⟨_, ‹_›, readPayload_eq_skipped.1 h⟩
    · cases h
  · trivial

theorem Message.Carries.sound (hc : msg.Carries updateTypeName key token) :
    msg.Sound updateTypeName := by
  obtain ⟨data, packedKey, rfl, hrest⟩ := hc
  exact .inl ⟨key, token, data, packedKey, rfl, hrest⟩

/-- Sound messages are all read, and their signals applied. -/
theorem applied_of_sound (h : ∀ c ∈ updateTypeName, c ≠ sep ∧ c ≠ '{' ∧ c ≠ '}')
    (hs : ∀ msg ∈ msgs, msg.Sound updateTypeName) : ∃ signals,
      Applied updateTypeName msgs signals ∧
        listenForCancelSignals msgs = (signals.map fun p => (p.1.toTuple, p.2), false) := by
  induction msgs with
  | nil => exact ⟨[], .nil, rfl⟩
  | cons msg msgs ih =>
    obtain ⟨signals, ha, hl⟩ := ih fun msg hmem => hs msg (List.mem_cons_of_mem _ hmem)
    by_cases hc : ∃ key token, msg.Carries updateTypeName key token
    · obtain ⟨key, token, hc⟩ := hc
      refine ⟨(key, token) :: signals, .apply hc ha, ?_⟩
      rw [listenForCancelSignals, hc.signal h]
      simp only [hl, List.map_cons]
    · have hskip := (hs msg List.mem_cons_self).skipped_or_carries.resolve_right hc
      refine ⟨signals, .skip (fun key token h => hc ⟨key, token, h⟩) ha, ?_⟩
      rw [listenForCancelSignals, hskip]
      exact hl

/-- Where no message ends the loop, every signal is dispatched, and nothing else
    is if the messages are sound. -/
theorem Applied.length_le (h : ∀ c ∈ updateTypeName, c ≠ sep ∧ c ≠ '{' ∧ c ≠ '}')
    {signals : List (ListenerKey × List Char)} (ha : Applied updateTypeName msgs signals)
    (hr : (listenForCancelSignals msgs).2 = false) :
    signals.length ≤ (listenForCancelSignals msgs).1.length ∧
      (signals.length = (listenForCancelSignals msgs).1.length →
        ∀ msg ∈ msgs, msg.Sound updateTypeName) := by
  induction ha with
  | nil => simp
  | @skip msg msgs signals hnc ha ih =>
    rw [listenForCancelSignals] at hr ⊢
    cases hsignal : msg.signal with
    | skipped =>
      simp only [hsignal] at hr ⊢
      refine (ih hr).imp_right fun hsound heq => ?_
      exact List.forall_mem_cons.2 ⟨Message.sound_of_skipped hsignal, hsound heq⟩
    | cancel key coordinatorId =>
      -- A cancel dispatched for no signal is one too many.
      simp only [hsignal] at hr ⊢
      have hle := (ih hr).1
      exact ⟨by simp only [List.length_cons]; omega, fun heq => by simp at heq; omega⟩
    | raised => simp [hsignal] at hr
  | @apply msg key token msgs signals hc ha ih =>
    rw [listenForCancelSignals, hc.signal h] at hr ⊢
    simp only [List.length_cons, Nat.add_le_add_iff_right, Nat.add_right_cancel_iff] at hr ⊢
    refine (ih hr).imp_right fun hsound heq => ?_
    exact List.forall_mem_cons.2 ⟨hc.sound, hsound heq⟩

/-- The loop reads all messages, dispatching one cancel for each payload and
    nothing else, exactly when the messages are sound. -/
theorem listen_applies_iff (h : ∀ c ∈ updateTypeName, c ≠ sep ∧ c ≠ '{' ∧ c ≠ '}') :
    (∃ signals, Applied updateTypeName msgs signals ∧
        listenForCancelSignals msgs = (signals.map fun p => (p.1.toTuple, p.2), false)) ↔
      ∀ msg ∈ msgs, msg.Sound updateTypeName := by
  refine ⟨fun ⟨signals, ha, hl⟩ => ?_, applied_of_sound h⟩
  exact (ha.length_le h (by rw [hl])).2 (by simp [hl])

/-- The confirmation of the subscription and a text without a separator are skipped; the signals
    of other sessions are for a whole chat, and for a user in it. -/
theorem listen_applies_iff_signal :
    let msgs := [Message.other, .message (.text "hello".toList),
      .message (.text "listen|registry|Message|100|_|_|t".toList),
      .message (.text "listen|registry|Message|100|7|_|u".toList)]
    (∃ signals, Applied "Message".toList msgs signals ∧
        listenForCancelSignals msgs = (signals.map fun p => (p.1.toTuple, p.2), false)) ∧
      ∀ m ∈ msgs, m.Sound "Message".toList := by
  intro msgs
  have hsound : ∀ m ∈ msgs, m.Sound "Message".toList := by
    simp only [msgs, List.forall_mem_cons]
    refine ⟨trivial, .inr ⟨_, rfl, by decide⟩, ?_, ?_, fun _ h => absurd h List.not_mem_nil⟩
    · exact .inl ⟨⟨100, none, none⟩, "t".toList, _, "listen|registry|Message|100|_|_".toList, rfl,
        by decide, by decide, rfl⟩
    · exact .inl ⟨⟨100, some 7, none⟩, "u".toList, _, "listen|registry|Message|100|7|_".toList, rfl,
        by decide, by decide, rfl⟩
  exact ⟨(listen_applies_iff (by simp [sep])).2 hsound, hsound⟩

/-- The bytes `a|b` end the loop, whatever follows: no key is packed before the
    separator, and `ListenerKey` is called without arguments. -/
theorem listen_killed : ¬∀ msgs, ∃ signals, Applied "Message".toList msgs signals ∧
    listenForCancelSignals msgs = (signals.map fun p => (p.1.toTuple, p.2), false) := by
  intro h
  obtain ⟨signals, _, hl⟩ := h [.message (.bytes "a|b".toList.utf8Encode),
    .message (.text "listen|registry|Message|100|_|_|t".toList)]
  have hsignal : (Message.message (.bytes "a|b".toList.utf8Encode)).signal = .raised := by
    rw [Message.signal, Data.decode, List.utf8Decode?_utf8Encode]
    decide
  rw [listenForCancelSignals, hsignal] at hl
  exact absurd (congrArg Prod.snd hl) (by simp)

end RedisListenerCoordinator

end Pyroflow
