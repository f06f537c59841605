import Pyroflow.Lib.PyStr
import Pyroflow.Models

/-!
# Packed keys and cancel signals

The texts `RedisListenerCoordinator` works with: the names under which the
registrations and the chat locks stand in Redis (`packKey`), the keys read back
from them (`unpackKey`), and the payloads of the cancel channel (`payload`,
`readPayload`).

A name is a template filled in with `format_map`, and the template contains the
name of the update type: as long as that has no brace, a packed key is the
concatenation of six fields (`packKey_eq`), of which the last three are the
components of the key, and no two keys or sections share one.
-/

namespace Pyroflow

open PyStr

/-- `ListenerKey.to_tuple`. -/
def ListenerKey.toTuple (key : ListenerKey) : List (Option ℤ) :=
  [some key.chatId, key.userId, key.messageId]

theorem ListenerKey.toTuple_injective : Function.Injective ListenerKey.toTuple := by
  intro key key' h
  cases key
  cases key'
  simpa [ListenerKey.toTuple] using h

namespace RedisListenerCoordinator

/-- The sections of the keys in Redis. -/
inductive Section
  | registry
  | lock
  deriving DecidableEq, Repr

/-- The text of a section. -/
def Section.text : Section → List Char
  | .registry => "registry".toList
  | .lock => "lock".toList

theorem Section.text_injective : Function.Injective Section.text := by
  intro s s' h
  cases s <;> cases s' <;> first | rfl | exact absurd h (by decide)

/-- `_sep`. -/
def sep : Char := '|'

/-- `_null`. -/
def null : List Char := ['_']

/-- `_key_format`, for the name of the update type. -/
def keyFormat (updateTypeName : List Char) : List Char :=
  "listen".toList ++ sep :: "{section}".toList ++ sep :: updateTypeName ++ sep :: "{key}".toList

/-- The text of a component of a key. -/
def component : Option ℤ → List Char
  | some i => str i
  | none => null

/-- The values `_pack_key` gives to the fields of `_key_format`. -/
def formatFields (key : ListenerKey) (s : Section) (field : List Char) : Option (List Char) :=
  if field = "section".toList then some s.text
  else if field = "key".toList then some ([sep].intercalate (key.toTuple.map component))
  else none

/-- `_pack_key`; `none` when `format_map` raises. -/
def packKey (updateTypeName : List Char) (key : ListenerKey) (s : Section := .registry) :
    Option (List Char) :=
  formatMap (formatFields key s) none (keyFormat updateTypeName)

/-- `ListenerKey(*keys)`, as its tuple: nothing checks that the chat is not `None`.
    With no argument, or more than three, it raises `TypeError`. -/
def listenerKey : List (Option ℤ) → Option (List (Option ℤ))
  | [chatId] => some [chatId, none, none]
  | [chatId, userId] => some [chatId, userId, none]
  | [chatId, userId, messageId] => some [chatId, userId, messageId]
  | _ => none

/-- A component read back; `none` when `int` raises `ValueError`. -/
def readComponent (text : List Char) : Option (Option ℤ) :=
  if text = null then some none else (int text).map some

/-- `_unpack_key`, as the tuple of the key; `none` when it raises. -/
def unpackKey (packedKey : List Char) : Option (List (Option ℤ)) :=
  (((packedKey.splitOn sep).drop 3).mapM readComponent).bind listenerKey

/-- What `cancel` publishes for a packed key and the id it held. -/
def payload (packedKey cancelledId : List Char) : List Char := packedKey ++ sep :: cancelledId

/-- What `_listen_for_cancel_signals` makes of the data of a message. -/
inductive Signal
  /-- The message is skipped. -/
  | skipped
  /-- The cancel of the key, of the registration with the id, is dispatched. -/
  | cancel (key : List (Option ℤ)) (coordinatorId : List Char)
  /-- The loop ends with the exception. -/
  | raised
  deriving DecidableEq, Repr

/-- `_listen_for_cancel_signals`, from the decoded data of a message on: a payload
    without a packed key is skipped, with a warning. -/
def readPayload (data : List Char) : Signal :=
  let (packedKey, coordinatorId) := rpartition sep data
  if packedKey = [] then .skipped
  else match unpackKey packedKey with
    | some key => .cancel key coordinatorId
    | none => .raised

variable {updateTypeName : List Char} {key key' : ListenerKey} {s s' : Section}

/-- The fields of a packed key. -/
def packedFields (updateTypeName : List Char) (key : ListenerKey) (s : Section) :
    List (List Char) :=
  "listen".toList :: s.text :: updateTypeName :: key.toTuple.map component

/-- Without a brace in the name of the update type, a packed key is the
    concatenation of its fields. -/
theorem packKey_eq (h : ∀ c ∈ updateTypeName, c ≠ '{' ∧ c ≠ '}') :
    packKey updateTypeName key s = some ([sep].intercalate (packedFields updateTypeName key s)) := by
  have hsep : sep ≠ '{' ∧ sep ≠ '}' := by decide
  have hlisten : ∀ c ∈ "listen".toList, c ≠ '{' ∧ c ≠ '}' := by simp
  have hsection : ∀ l, formatMap (formatFields key s) none ("{section}".toList ++ l) =
      (formatMap (formatFields key s) none l).map (s.text ++ ·) := by
    intro l
    have hname : ∀ c ∈ "section".toList, c ≠ '{' ∧ c ≠ '}' := by simp
    have hvalue : formatFields key s "section".toList = some s.text := rfl
    exact formatMap_field hname hvalue
  have hkey : formatMap (formatFields key s) none "{key}".toList =
      some ([sep].intercalate (key.toTuple.map component)) := by
    have hname : ∀ c ∈ "key".toList, c ≠ '{' ∧ c ≠ '}' := by simp
    have hvalue : formatFields key s "key".toList =
        some ([sep].intercalate (key.toTuple.map component)) := rfl
    exact formatMap_field_end hname hvalue
  unfold packKey keyFormat
  simp only [List.append_assoc, List.cons_append]
  rw [formatMap_append hlisten, formatMap_cons hsep, hsection, formatMap_cons hsep,
    formatMap_append h, formatMap_cons hsep, hkey]
  simp [packedFields, ListenerKey.toTuple, List.intercalate_cons_cons]

theorem sep_notMem_component (i : Option ℤ) : sep ∉ component i := by
  intro h
  cases i with
  | none => simp [component, null, sep] at h
  | some i =>
    rcases mem_str h with h | h
    · simp [sep] at h
    · simp [sep] at h

/-- A component is read back from its text. -/
theorem readComponent_component (i : Option ℤ) : readComponent (component i) = some i := by
  cases i with
  | none => rfl
  | some i =>
    -- No integer is written as the null text.
    have hnull : str i ≠ null := by
      intro h
      have hmem : '_' ∈ str i := by simp [h, null]
      rcases mem_str hmem with h | h <;> simp at h
    rw [component, readComponent, if_neg hnull, int_str]
    rfl

theorem sep_notMem_packedFields (h : sep ∉ updateTypeName) :
    ∀ field ∈ packedFields updateTypeName key s, sep ∉ field := by
  intro field hfield
  rw [packedFields, List.mem_cons, List.mem_cons, List.mem_cons, List.mem_map] at hfield
  rcases hfield with rfl | rfl | rfl | ⟨i, _, rfl⟩
  · decide
  · cases s <;> decide
  · exact h
  · exact sep_notMem_component i

theorem splitOn_packed (h : sep ∉ updateTypeName) :
    ([sep].intercalate (packedFields updateTypeName key s)).splitOn sep =
      packedFields updateTypeName key s :=
  List.splitOn_intercalate sep (sep_notMem_packedFields h) (List.cons_ne_nil _ _)

/-- A key is read back from its packed form. -/
theorem unpackKey_packed (h : sep ∉ updateTypeName) :
    unpackKey ([sep].intercalate (packedFields updateTypeName key s)) = some key.toTuple := by
  have hread : (key.toTuple.map component).mapM readComponent = some key.toTuple := by
    rw [List.mapM_map]
    exact (mapM_eq_some fun i _ => readComponent_component i).trans (by rw [List.map_id'])
  rw [unpackKey, splitOn_packed h, packedFields, List.drop_succ_cons, List.drop_succ_cons,
    List.drop_succ_cons, List.drop_zero, hread]
  rfl

/-- No packed key is empty. -/
theorem packed_ne_nil : [sep].intercalate (packedFields updateTypeName key s) ≠ [] := by
  simp [packedFields, ListenerKey.toTuple, List.intercalate_cons_cons]

/-- A payload is read as the cancel it was published for. -/
theorem readPayload_packed {token : List Char} (h : sep ∉ updateTypeName) (ht : sep ∉ token) :
    readPayload (payload ([sep].intercalate (packedFields updateTypeName key s)) token) =
      .cancel key.toTuple token := by
  rw [readPayload, payload, rpartition_append_cons ht]
  simp only [if_neg packed_ne_nil, unpackKey_packed h]

/-- Where the name of the update type has neither separators nor braces, a key is
    read back from its packed form, a cancel from its payload, and a packed form
    stands for one key in one section. -/
theorem packKey_roundTrip (h : ∀ c ∈ updateTypeName, c ≠ sep ∧ c ≠ '{' ∧ c ≠ '}') :
    (∀ key s, (packKey updateTypeName key s).bind unpackKey = some key.toTuple) ∧
    (∀ key token, sep ∉ token →
      (packKey updateTypeName key).map (fun packedKey => readPayload (payload packedKey token)) =
        some (.cancel key.toTuple token)) ∧
    ∀ key key' s s', packKey updateTypeName key s = packKey updateTypeName key' s' →
      key = key' ∧ s = s' := by
  have hsep : sep ∉ updateTypeName := fun hmem => (h sep hmem).1 rfl
  have hpack : ∀ key s, packKey updateTypeName key s =
      some ([sep].intercalate (packedFields updateTypeName key s)) := fun _ _ =>
    packKey_eq fun c hc => (h c hc).2
  refine ⟨fun key s => ?_, fun key token ht => ?_, fun key key' s s' heq => ?_⟩
  · rw [hpack, Option.bind_some, unpackKey_packed hsep]
  · rw [hpack, Option.map_some, readPayload_packed hsep ht]
  · rw [hpack, hpack, Option.some_inj] at heq
    have hfields := congrArg (List.splitOn sep) heq
    have hkey := congrArg unpackKey heq
    rw [splitOn_packed hsep, splitOn_packed hsep] at hfields
    rw [unpackKey_packed hsep, unpackKey_packed hsep, Option.some_inj] at hkey
    refine ⟨ListenerKey.toTuple_injective hkey, Section.text_injective ?_⟩
    exact (List.cons.inj (List.cons.inj hfields).2).1

/-- A lock of the chat -100. -/
theorem packKey_roundTrip_lock :
    packKey "Message".toList ⟨-100, some 5, none⟩ .lock =
        some "listen|lock|Message|-100|5|_".toList ∧
      (packKey "Message".toList ⟨-100, some 5, none⟩ .lock).bind unpackKey =
        some [some (-100), some 5, none] :=
  ⟨by decide, (packKey_roundTrip (by simp [sep])).1 _ _⟩

/-- A brace in the name of the update type is read as a field: the components of
    the key appear twice, and are not read back. -/
theorem packKey_brace : ¬∀ updateTypeName : List Char, sep ∉ updateTypeName → ∀ key s,
    (packKey updateTypeName key s).bind unpackKey = some key.toTuple := by
  intro h
  exact absurd (h "{key}".toList (by decide) ⟨100, none, none⟩ .registry) (by decide)

end RedisListenerCoordinator

end Pyroflow
