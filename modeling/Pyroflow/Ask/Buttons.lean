import Mathlib.Data.List.TakeWhile
import Pyroflow.Ask
import Pyroflow.Listener.Asks

/-!
# The listener of an ask

A callback from a button on the message of an ask is looked up among the message listeners
(`CallbackQueryListener.onUnresolved`). The listener of the ask waits under the key its call was
made with (`ListenRequest.key`). Its metadata names the message if the caller gave it none, or a
dictionary without `message_id`, or one with this very id; a dictionary with another id does not,
nor does metadata that is no dictionary (`names_askMeta_iff`).

So a callback from a user and for a message the ask waits for finds the listener of the ask if
its metadata names the message, and no listener waits under a more specific key
(`onUnresolved_ask_iff`).
-/

namespace Pyroflow

variable {UpdateType ExcTypes Handler Value Json Exc Update Token : Type}

/-- The key a listener waits under that is called like this. -/
def ListenRequest.key (r : ListenRequest Value Json) : ListenerKey :=
  ⟨r.chatId, r.userId, r.messageId⟩

namespace AskMeta

variable (eqInt : Json → ℤ → Bool)

/-- `isinstance(meta, dict) and meta.get("message_id") == message_id`. -/
def names : AskMeta Json → ℤ → Bool
  | .dict items, messageId => (items.get? "message_id").any fun value => eqInt value messageId
  | .other _, _ => false

/-- The `message_id` that metadata given by the caller has, if it is none, or a dictionary.
    Other metadata has none, and gets none. -/
def given : Option (AskMeta Json) → Option (Option Json)
  | none => some none
  | some (.dict items) => some (items.get? "message_id")
  | some (.other _) => none

variable {eqInt} {ofInt : ℤ → Json} {m : SentMessage} {metadata : Option (AskMeta Json)}
  {messageId : ℤ}

/-- The metadata of an ask names its message, or the one the caller told it to name. Metadata
    that is no dictionary is left as it is, and names no message. -/
theorem names_askMeta_iff (hint : ∀ a b, eqInt (ofInt a) b = decide (a = b)) :
    (askMeta ofInt m metadata).names eqInt messageId = true ↔
      given metadata = some none ∧ m.id = messageId ∨
        ∃ value, given metadata = some (some value) ∧ eqInt value messageId = true := by
  cases metadata with
  | none => simp [askMeta, names, given, OrderedDict.get?_set, hint]
  | some metadata =>
    cases metadata with
    | other value => simp [askMeta, names, given]
    | dict items =>
      rw [askMeta, given]
      cases hget : items.get? "message_id" with
      | none => simp [names, OrderedDict.get?_set, hint]
      | some value => simp [names, hget]

end AskMeta

/-- The first of some keys with a listener is a given one if there is none under those before. -/
theorem findSome?_eq_some_iff {keys : List ListenerKey} {key : ListenerKey}
    {listeners : ListenerKey → Option (ListenerModel Token (AskMeta Json))}
    {listener : ListenerModel Token (AskMeta Json)} (hmem : key ∈ keys)
    (hl : listeners key = some listener) :
    (keys.findSome? fun sub => (listeners sub).map fun listener => (sub, listener)) =
        some (key, listener) ↔
      ∀ sub ∈ keys.takeWhile (· ≠ key), listeners sub = none := by
  induction keys with
  | nil => exact absurd hmem List.not_mem_nil
  | cons sub keys ih =>
    by_cases hsub : sub = key
    · subst hsub
      simp [hl]
    · have hmem := (List.mem_cons.1 hmem).resolve_left (Ne.symm hsub)
      rw [List.findSome?_cons, List.takeWhile_cons_of_pos (by simpa using hsub), List.forall_mem_cons]
      cases hs : listeners sub with
      | none => simpa using ih hmem
      | some listener' => simp [hsub]

variable {client : AskClient UpdateType ExcTypes Handler Value Json Exc Update}
  {args : AskArgs UpdateType ExcTypes Handler Value Json Exc} {m : SentMessage}
  {r : ListenRequest Value Json}

/-- What the listener of an ask is called with, if the message asked with is in a chat. -/
theorem AskClient.of_listenRequest {chatId : ℤ} (h : client.listenRequest args m = .ok r)
    (hchat : m.chat = some chatId) : r.chatId = chatId ∧ r.userId = args.listenUserId ∧
      r.metadata = askMeta client.ofInt m args.metadata := by
  rw [listenRequest] at h
  split at h
  case h_1 => cases h
  case h_2 =>
    split at h
    case h_1 => cases h
    case h_2 chatId' hfinal =>
      cases h
      refine ⟨?_, rfl, rfl⟩
      cases hask : args.chatId <;>
      · rw [hask, finalChatId, hchat] at hfinal
        exact (Except.ok.inj hfinal).symm

/-- A callback from the message of an ask that waits for its user and message finds the listener
    of the ask if and only if its metadata names the message, and no listener waits under a more
    specific key. -/
theorem onUnresolved_ask_iff {eqInt : Json → ℤ → Bool} {chatId userId : ℤ}
    {listeners : ListenerKey → Option (ListenerModel Token (AskMeta Json))}
    {listener : ListenerModel Token (AskMeta Json)}
    (hint : ∀ a b, eqInt (client.ofInt a) b = decide (a = b))
    (h : client.listenRequest args m = .ok r) (hchat : m.chat = some chatId) (hid : m.id ≠ 0)
    (hl : listeners r.key = some listener) (hmeta : listener.metadata = some r.metadata)
    (huser : ∀ u ∈ args.listenUserId, u = userId) (hmessage : ∀ i ∈ r.messageId, i = m.id) :
    CallbackQueryListener.onUnresolved (AskMeta.names eqInt) (some listeners)
        ⟨chatId, some userId, some m.id⟩ (some m.id) = some (r.key, listener) ↔
      (AskMeta.given args.metadata = some none ∨
        ∃ value, AskMeta.given args.metadata = some (some value) ∧ eqInt value m.id = true) ∧
      ∀ sub ∈ (ListenerKey.mk chatId (some userId) (some m.id)).subKeys.takeWhile (· ≠ r.key),
        listeners sub = none := by
  obtain ⟨hc, hu, hm⟩ := AskClient.of_listenRequest h hchat
  have hmem : r.key ∈ (ListenerKey.mk chatId (some userId) (some m.id)).subKeys := by
    rw [ListenerKey.subKeys_full, ListenRequest.key, hc, hu]
    cases hlu : args.listenUserId with
    | none =>
      cases hlm : r.messageId with
      | none => simp
      | some i => simp [hmessage i hlm]
    | some u =>
      cases hlm : r.messageId with
      | none => simp [huser u hlu]
      | some i => simp [huser u hlu, hmessage i hlm]
  have hasks : listener.asks (AskMeta.names eqInt) m.id = true ↔
      AskMeta.given args.metadata = some none ∨
        ∃ value, AskMeta.given args.metadata = some (some value) ∧ eqInt value m.id = true := by
    rw [ListenerModel.asks, hmeta, hm]
    exact (AskMeta.names_askMeta_iff hint).trans (by rw [and_iff_left rfl])
  rw [CallbackQueryListener.onUnresolved, if_neg hid, Option.filter_eq_some_iff,
    findSome?_eq_some_iff hmem hl, hasks, and_comm]

/-- Without metadata, of the caller's, and without other listeners, it does. -/
theorem onUnresolved_ask_iff_user :
    ∃ (listeners : ListenerKey → Option (ListenerModel ℕ (AskMeta ℤ)))
      (listener : ListenerModel ℕ (AskMeta ℤ)),
      listener.metadata = some (askMeta id ⟨8, some 100⟩ none) ∧
      CallbackQueryListener.onUnresolved (AskMeta.names fun a b => decide (a = b)) (some listeners)
        ⟨100, some 5, some 8⟩ (some 8) = some (⟨100, some 5, none⟩, listener) := by
  let client : AskClient Unit Unit Unit ℕ ℤ Unit Unit :=
    ⟨fun _ => "Message", fun _ => some fun _ => .ok (), fun _ => true, fun _ => .ok ⟨8, some 100⟩,
      fun _ => .ok 100, id, fun _ => true, fun _ _ => true, fun _ => none, fun _ _ _ => none⟩
  let args : AskArgs Unit Unit Unit ℕ ℤ Unit :=
    ⟨.id 100, "Name?", none, fun _ => none, some 5, .none, none, none, (), none, []⟩
  let r : ListenRequest ℕ ℤ := ⟨100, some 5, none, askMeta id ⟨8, some 100⟩ none, none⟩
  have h : client.listenRequest args ⟨8, some 100⟩ = .ok r := rfl
  let listener : ListenerModel ℕ (AskMeta ℤ) := ⟨r.key, some r.metadata, 0, some 0⟩
  refine ⟨fun key => if key = r.key then some listener else none, listener, rfl, ?_⟩
  refine (onUnresolved_ask_iff (fun _ _ => rfl) h rfl (by decide) (if_pos rfl) rfl
    (by rintro _ ⟨⟩; rfl) nofun).2 ⟨.inl rfl, fun sub hsub => if_neg ?_⟩
  simpa using List.mem_takeWhile_imp hsub

end Pyroflow
