import Mathlib.Data.List.Basic
import Mathlib.Data.Nat.Log

/-!
# Keys, listeners and futures

The data of `models.py` and `errors.py`, and of the asyncio futures behind the
listeners.

A `ListenerKey` names a conversation slot: a chat, and optionally a user and a
message. The keys an update may be waited for under are its sub-keys
(`ListenerKey.subKeys`): the combinations of the components its own key carries,
most specific first, read off the submasks of a bit mask (`getPlan`).

A listener model (`ListenerModel`) is what a waiting call leaves in the local
map: its key, its metadata, its future, and the token (`coordinatorId`) its
registration was issued. As a call waits on one future of its own, a future is
named by its call.
-/

namespace Pyroflow

/-! ### Listener keys -/

/-- `_get_plan`, with `itertools.combinations`: the sublists of the given size,
    in lexicographic order. -/
def combinations {α : Type*} : ℕ → List α → List (List α)
  | 0, _ => [[]]
  | _ + 1, [] => []
  | size + 1, a :: l => (combinations size l).map (a :: ·) ++ combinations (size + 1) l

/-- `int.bit_length`. -/
def bitLength (mask : ℕ) : ℕ := if mask = 0 then 0 else mask.log2 + 1

/-- The set bits of a mask, ascending. -/
def setBits (mask : ℕ) : List ℕ := (List.range (bitLength mask)).filter mask.testBit

/-- `_get_plan`: the submasks of a mask, the larger ones first. -/
def getPlan (mask : ℕ) : List ℕ :=
  (List.range ((setBits mask).length + 1)).reverse.flatMap fun size =>
    (combinations size (setBits mask)).map fun combo =>
      combo.foldl (fun keep i => keep ||| 1 <<< i) 0

/-- A conversation slot: a chat, and optionally a user and a message. -/
structure ListenerKey where
  chatId : ℤ
  userId : Option ℤ := none
  messageId : Option ℤ := none
  deriving DecidableEq, Repr

namespace ListenerKey

/-- The mask of the optional components a key carries: `user_id` is the
    component 1, `message_id` the component 2. -/
def mask (key : ListenerKey) : ℕ :=
  (if key.userId.isSome then 1 <<< 1 else 0) ||| (if key.messageId.isSome then 1 <<< 2 else 0)

/-- The components of a key selected by a submask; the chat is always kept. -/
def select (key : ListenerKey) (keep : ℕ) : ListenerKey where
  chatId := key.chatId
  userId := if keep.testBit 1 then key.userId else none
  messageId := if keep.testBit 2 then key.messageId else none

/-- `ListenerKey.sub_keys`: the keys a listener for an update with this key could
    be registered under, most specific first, down to `minDep` components
    (counting the chat). -/
def subKeys (key : ListenerKey) (minDep : ℤ := 1) : List ListenerKey :=
  ((getPlan key.mask).takeWhile fun keep => ¬((setBits keep).length + 1 : ℤ) < minDep).map
    key.select

/-- The sub-keys of a key are keys of its chat. -/
theorem chatId_of_mem_subKeys {key sub : ListenerKey} {minDep : ℤ} (h : sub ∈ key.subKeys minDep) :
    sub.chatId = key.chatId := by
  obtain ⟨keep, _, rfl⟩ := List.mem_map.1 h
  rfl

/-- The key of a whole chat is its only sub-key. -/
theorem subKeys_chat (chatId : ℤ) : (mk chatId none none).subKeys = [⟨chatId, none, none⟩] := by
  simp [subKeys, mask, getPlan, setBits, bitLength, combinations, select]

/-- The sub-keys of a key that carries a user and a message. -/
theorem subKeys_full (chatId userId messageId : ℤ) :
    (mk chatId (some userId) (some messageId)).subKeys = [⟨chatId, some userId, some messageId⟩,
      ⟨chatId, some userId, none⟩, ⟨chatId, none, some messageId⟩, ⟨chatId, none, none⟩] := by
  have hmask : (mk chatId (some userId) (some messageId)).mask = 6 := by simp [mask]
  have hplan : ((getPlan 6).takeWhile fun keep => ¬((setBits keep).length + 1 : ℤ) < 1) =
      [6, 2, 4, 0] := by decide
  rw [subKeys, hmask, hplan]
  simp [select, Nat.testBit]

/-- A listener on a message outranks only the one on the whole chat. -/
example : (ListenerKey.mk 100 (some 7) (some 5)).subKeys =
    [⟨100, some 7, some 5⟩, ⟨100, some 7, none⟩, ⟨100, none, some 5⟩, ⟨100, none, none⟩] := by
  decide

end ListenerKey

/-! ### Errors and futures -/

/-- The calls of a listener (of `listen`, `resolve` or `cancel`), each kind
    numbered on its own. -/
abbrev CallId := ℕ

/-- The exceptions a call may end with. -/
inductive Exc (Update : Type)
  | listenerCancelled (key : ListenerKey) (isDuplicate : Bool)
  | listenerTimeout (key : ListenerKey)
  | listenerAlreadyExists (key : ListenerKey)
  | unresolvedUpdate (update : Update)
  /-- `RuntimeError("ListenerCoordinator and listeners are out of sync")`. -/
  | outOfSync
  /-- `KeyError`, of a registration under a key that is taken. -/
  | keyError (key : ListenerKey)
  /-- `asyncio.InvalidStateError`, of the completion of a future that is done. -/
  | invalidState
  /-- `asyncio.CancelledError`: the task was cancelled. -/
  | cancelledError
  /-- Whatever a user's hook raises. -/
  | hookError
  deriving DecidableEq

/-- How a call ends: with a value, or raising. -/
inductive Outcome (Update α : Type)
  | returned (value : α)
  | raised (exc : Exc Update)
  deriving DecidableEq

/-- The future of a `listen` call. The call of `resolve` that set the result is
    recorded with it. -/
inductive Future (Update : Type)
  | pending
  | result (update : Update) (resolver : CallId)
  | exception (exc : Exc Update)
  | cancelled
  deriving DecidableEq

/-- `Future.done`. -/
def Future.done {Update : Type} : Future Update → Bool
  | .pending => false
  | _ => true

@[simp] theorem Future.done_eq_false_iff {Update : Type} {f : Future Update} :
    f.done = false ↔ f = .pending := by
  cases f <;> simp [Future.done]

theorem Future.done_iff {Update : Type} {f : Future Update} : f.done = true ↔ f ≠ .pending := by
  rw [← Bool.not_eq_false, Ne, Future.done_eq_false_iff]

/-- `enums.DuplicatePolicy`. -/
inductive DuplicatePolicy
  | reject
  | replace
  deriving DecidableEq

/-- `models.ListenerModel`: the listener a waiting call leaves in the local map.
    Its future is that of the call `future`. -/
structure ListenerModel (Token Metadata : Type) where
  key : ListenerKey
  metadata : Option Metadata
  future : CallId
  coordinatorId : Option Token
  deriving DecidableEq

end Pyroflow
