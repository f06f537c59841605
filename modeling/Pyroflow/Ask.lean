import Mathlib.Data.Int.Notation
import Mathlib.Data.List.Basic
import Pyroflow.Lib.OrderedDict

/-!
# Asks

The error handlers of asks: what `register_ask_error_handler` and `unregister_ask_error_handler`
do to those of a client (`registerAskErrorHandler`, `unregisterAskErrorHandler`), and which one
`handle_ask_error` runs (`handleAskError`).

Of the handlers of a client, for one type of update, it is the one whose exceptions have been
registered longest, as it was registered last, after whatever calls; those for other types of
updates do not matter (`handleAskError_eq_some_iff`).
-/

namespace Pyroflow

open OrderedDict

/-! ### Error handlers -/

variable {UpdateType ExcTypes Handler : Type}

/-- `AskErrorHandlersT`: handlers by the exceptions they are for, in order. -/
abbrev AskErrorHandlers (ExcTypes Handler : Type) : Type := OrderedDict ExcTypes Handler

/-- `handle_ask_error`, up to the handler it awaits: the first one, in the mappings in order,
    whose exceptions the exception is an instance of. -/
def handleAskError (isinstance : ExcTypes → Bool) :
    List (Option (AskErrorHandlers ExcTypes Handler)) → Option Handler
  | [] => none
  | none :: handlers => handleAskError isinstance handlers
  | some hdlrs :: handlers =>
    match hdlrs.items.find? fun item => isinstance item.1 with
    | some (_, handler) => some handler
    | none => handleAskError isinstance handlers

section Registry

variable [DecidableEq UpdateType] [DecidableEq ExcTypes]

/-- `ask_error_handlers` of a client, by the type of the updates. -/
abbrev ClientAskErrorHandlers (UpdateType ExcTypes Handler : Type) : Type :=
  UpdateType → Option (AskErrorHandlers ExcTypes Handler)

/-- `register_ask_error_handler`. -/
def registerAskErrorHandler (handlers : ClientAskErrorHandlers UpdateType ExcTypes Handler)
    (excTypes : ExcTypes) (handler : Handler) (updateType : UpdateType) :
    ClientAskErrorHandlers UpdateType ExcTypes Handler :=
  Function.update handlers updateType
    (some (((handlers updateType).getD .empty).set excTypes handler))

/-- `unregister_ask_error_handler`, with what it returns. -/
def unregisterAskErrorHandler (handlers : ClientAskErrorHandlers UpdateType ExcTypes Handler)
    (excTypes : ExcTypes) (updateType : UpdateType) :
    Bool × ClientAskErrorHandlers UpdateType ExcTypes Handler :=
  match handlers updateType with
  | none => (false, handlers)
  | some hdlrs =>
    if hdlrs.items.isEmpty then (false, handlers)
    else ((hdlrs.get? excTypes).isSome,
      Function.update handlers updateType (some (hdlrs.pop excTypes)))

/-- A call of one of the two. -/
inductive AskErrorHandlerCall (UpdateType ExcTypes Handler : Type)
  | register (excTypes : ExcTypes) (handler : Handler) (updateType : UpdateType)
  | unregister (excTypes : ExcTypes) (updateType : UpdateType)

namespace AskErrorHandlerCall

/-- `ask_error_handlers` after some calls, the last one first. -/
def handlersAfter : List (AskErrorHandlerCall UpdateType ExcTypes Handler) →
    ClientAskErrorHandlers UpdateType ExcTypes Handler
  | [] => fun _ => none
  | .register excTypes handler updateType :: calls =>
    registerAskErrorHandler (handlersAfter calls) excTypes handler updateType
  | .unregister excTypes updateType :: calls =>
    (unregisterAskErrorHandler (handlersAfter calls) excTypes updateType).2

/-- What a call does to the handlers for a type of updates, if it is for this type. -/
def op? (updateType : UpdateType) :
    AskErrorHandlerCall UpdateType ExcTypes Handler → Option (Op ExcTypes Handler)
  | .register excTypes handler updateType' =>
    if updateType' = updateType then some (.set excTypes handler) else none
  | .unregister excTypes updateType' =>
    if updateType' = updateType then some (.pop excTypes) else none

variable {calls : List (AskErrorHandlerCall UpdateType ExcTypes Handler)}
  {updateType : UpdateType} {excTypes : ExcTypes} {handler : Handler}

/-- Removing a handler that is not there changes nothing. -/
theorem unregister_getD (handlers : ClientAskErrorHandlers UpdateType ExcTypes Handler)
    (excTypes : ExcTypes) (updateType updateType' : UpdateType) :
    ((unregisterAskErrorHandler handlers excTypes updateType').2 updateType).getD .empty =
      if updateType' = updateType then ((handlers updateType).getD .empty).pop excTypes
      else (handlers updateType).getD .empty := by
  by_cases hT : updateType' = updateType
  · subst hT
    rw [if_pos rfl, unregisterAskErrorHandler]
    cases hh : handlers updateType' with
    | none => simp only [hh, Option.getD_none, pop_eq_self (d := empty) rfl]
    | some hdlrs =>
      dsimp only
      split
      case isTrue hempty =>
        dsimp only
        rw [hh, Option.getD_some, pop_eq_self (List.isEmpty_iff.1 hempty)]
      case isFalse hempty =>
        dsimp only
        rw [Function.update_self, Option.getD_some, Option.getD_some]
  · rw [if_neg hT, unregisterAskErrorHandler]
    split
    case h_1 => rfl
    case h_2 hdlrs hh =>
      split
      case isTrue => rfl
      case isFalse =>
        dsimp only
        rw [Function.update_of_ne (Ne.symm hT)]

/-- The handlers for a type of updates come from the calls for this type. -/
theorem handlersAfter_getD :
    (handlersAfter calls updateType).getD .empty = dictOf (calls.filterMap (op? updateType)) := by
  induction calls with
  | nil => rfl
  | cons call calls ih =>
    cases call with
    | register excTypes handler updateType' =>
      rw [handlersAfter, registerAskErrorHandler]
      by_cases hT : updateType' = updateType
      · subst hT
        rw [List.filterMap_cons_some (by rw [op?, if_pos rfl]), Function.update_self, dictOf, ← ih]
        rfl
      · rw [List.filterMap_cons_none (by rw [op?, if_neg hT]), Function.update_of_ne (Ne.symm hT),
          ih]
    | unregister excTypes updateType' =>
      rw [handlersAfter, unregister_getD]
      by_cases hT : updateType' = updateType
      · rw [List.filterMap_cons_some (by rw [op?, if_pos hT]), if_pos hT, ih]
        rfl
      · rw [List.filterMap_cons_none (by rw [op?, if_neg hT]), if_neg hT, ih]

/-- A handler was removed if there was one for just these exceptions. -/
theorem unregister_eq_true_iff :
    (unregisterAskErrorHandler (handlersAfter calls) excTypes updateType).1 = true ↔
      ∃ handler, last excTypes (calls.filterMap (op? updateType)) = some handler := by
  have hdict : (handlersAfter calls updateType).getD .empty = _ := handlersAfter_getD
  simp only [← mem_items_dictOf, ← hdict, ← get?_eq_some_iff, ← Option.isSome_iff_exists]
  rw [unregisterAskErrorHandler]
  cases hh : handlersAfter calls updateType with
  | none => simp [get?, empty]
  | some hdlrs =>
    dsimp only
    split
    case isTrue hempty => simp [get?, List.isEmpty_iff.1 hempty]
    case isFalse => rfl

variable {isinstance : ExcTypes → Bool}

omit [DecidableEq ExcTypes] in
theorem handleAskError_cons (hdlrs : Option (AskErrorHandlers ExcTypes Handler))
    (handlers : List (Option (AskErrorHandlers ExcTypes Handler))) :
    handleAskError isinstance (hdlrs :: handlers) =
      (((hdlrs.getD .empty).items.find? fun item => isinstance item.1).map Prod.snd).or
        (handleAskError isinstance handlers) := by
  cases hdlrs with
  | none => rfl
  | some hdlrs =>
    rw [handleAskError, Option.getD_some]
    cases hdlrs.items.find? fun item => isinstance item.1 <;> rfl

/-- The handler of an ask is the first of its own that is for the exception, or else, of those the
    client has for the type of its updates, the one that came first, as it was last registered. -/
theorem handleAskError_eq_some_iff (own : Option (AskErrorHandlers ExcTypes Handler)) :
    handleAskError isinstance [own, handlersAfter calls updateType] = some handler ↔
      (∃ hdlrs ∈ own, ∃ excTypes,
        hdlrs.items.find? (fun item => isinstance item.1) = some (excTypes, handler)) ∨
      (∀ hdlrs ∈ own, ∀ item ∈ hdlrs.items, isinstance item.1 = false) ∧
        ∃ excTypes, isinstance excTypes = true ∧
          last excTypes (calls.filterMap (op? updateType)) = some handler ∧
          ∀ excTypes' i, isinstance excTypes' = true →
            since excTypes' (calls.filterMap (op? updateType)) = some i →
            ∃ j, since excTypes (calls.filterMap (op? updateType)) = some j ∧ j ≤ i := by
  have hclient : handleAskError isinstance [handlersAfter calls updateType] = some handler ↔
      ∃ excTypes, isinstance excTypes = true ∧
        last excTypes (calls.filterMap (op? updateType)) = some handler ∧
        ∀ excTypes' i, isinstance excTypes' = true →
          since excTypes' (calls.filterMap (op? updateType)) = some i →
          ∃ j, since excTypes (calls.filterMap (op? updateType)) = some j ∧ j ≤ i := by
    rw [handleAskError_cons, handleAskError, Option.or_none, handlersAfter_getD,
      Option.map_eq_some_iff]
    simp only [← find?_dictOf_eq_some_iff]
    constructor
    · rintro ⟨item, h, rfl⟩
      exact ⟨item.1, h⟩
    · rintro ⟨excTypes, h⟩
      exact ⟨_, h, rfl⟩
  rw [handleAskError_cons, Option.or_eq_some_iff, hclient, Option.map_eq_none_iff,
    List.find?_eq_none, Option.map_eq_some_iff]
  cases own with
  | none => simp [empty]
  | some hdlrs => simp

end AskErrorHandlerCall

end Registry

/-! ### Requests -/

/-- The options of `Client.ask` for the message. -/
inductive AskOption
  | parseMode | entities | linkPreviewOptions | scheduleDate | businessConnectionId | replyMarkup
  | disableNotification | messageThreadId | directMessagesTopicId | effectId | replyParameters
  | repeatPeriod | protectContent | allowPaidBroadcast | paidMessageStarCount
  | suggestedPostParameters
  deriving DecidableEq, Repr

/-- The options that `edit_message_text` is given. -/
def AskOption.isEdit : AskOption → Bool
  | .parseMode | .entities | .linkPreviewOptions | .scheduleDate | .businessConnectionId
  | .replyMarkup => true
  | _ => false

/-- The options that `Message.ask` has no use for when it edits the message. -/
def AskOption.isSend : AskOption → Bool
  | .replyParameters | .disableNotification | .messageThreadId | .directMessagesTopicId
  | .effectId | .scheduleDate | .repeatPeriod | .protectContent | .allowPaidBroadcast
  | .paidMessageStarCount | .suggestedPostParameters => true
  | _ => false

/-- All options. -/
def AskOption.all : List AskOption :=
  [.parseMode, .entities, .linkPreviewOptions, .scheduleDate, .businessConnectionId, .replyMarkup,
    .disableNotification, .messageThreadId, .directMessagesTopicId, .effectId, .replyParameters,
    .repeatPeriod, .protectContent, .allowPaidBroadcast, .paidMessageStarCount,
    .suggestedPostParameters]

/-- A chat, by its id or a name. -/
inductive AskChat
  | id (chatId : ℤ)
  | name (name : String)
  deriving DecidableEq, Repr

/-- The message asked with, as far as it is read: its id, and that of its chat. -/
structure SentMessage where
  id : ℤ
  chat : Option ℤ
  deriving DecidableEq, Repr

/-- What the client is made to do: `edit_message_text` or `send_message`. -/
inductive AskRequest (Value : Type)
  | edit (chatId : AskChat) (messageId : ℤ) (text : String) (options : AskOption → Option Value)
    (kw : List (String × Value))
  | send (chatId : AskChat) (text : String) (options : AskOption → Option Value)
    (kw : List (String × Value))

/-- `meta`: a dictionary, or something else. -/
inductive AskMeta (Json : Type)
  | dict (items : OrderedDict String Json)
  | other (value : Json)

/-- `listen_message_id`: an id, or a function of the message asked with, which may raise. -/
inductive ListenMessageId (Exc : Type)
  | none
  | id (messageId : ℤ)
  | callable (f : SentMessage → Except Exc (Option ℤ))

/-- The message id it stands for. -/
def ListenMessageId.resolve {Exc : Type} (m : SentMessage) :
    ListenMessageId Exc → Except Exc (Option ℤ)
  | .none => .ok .none
  | .id messageId => .ok (some messageId)
  | .callable f => f m

/-- The arguments of `Client.ask`. -/
structure AskArgs (UpdateType ExcTypes Handler Value Json Exc : Type) where
  chatId : AskChat
  text : String
  messageId : Option ℤ
  options : AskOption → Option Value
  listenUserId : Option ℤ
  listenMessageId : ListenMessageId Exc
  metadata : Option (AskMeta Json)
  timeout : Option Value
  updateType : UpdateType
  errorHandlers : Option (AskErrorHandlers ExcTypes Handler)
  kw : List (String × Value)

/-- What the listener is called with. -/
structure ListenRequest (Value Json : Type) where
  chatId : ℤ
  userId : Option ℤ
  messageId : Option ℤ
  metadata : AskMeta Json
  timeout : Option Value

/-- What an ask raises. -/
inductive AskError (Exc : Type)
  | runtimeError (message : String)
  | valueError (message : String)
  | raised (exc : Exc)

/-- What an ask makes happen. -/
inductive AskEvent (Handler Value Json Exc : Type)
  | request (request : AskRequest Value)
  | listen (request : ListenRequest Value Json)
  | handle (handler : Handler) (exc : Exc) (m : SentMessage)

/-- A client, by what its methods and its listeners answer. -/
structure AskClient (UpdateType ExcTypes Handler Value Json Exc Update : Type) where
  /-- `update_type.__name__`. -/
  name : UpdateType → String
  /-- The listener that is registered. -/
  listeners : UpdateType → Option (ListenRequest Value Json → Except Exc Update)
  isInlineKeyboardMarkup : Value → Bool
  perform : AskRequest Value → Except Exc SentMessage
  /-- The id of the peer, of `resolve_peer`. -/
  resolvePeer : String → Except Exc ℤ
  ofInt : ℤ → Json
  isException : Exc → Bool
  isinstance : Exc → ExcTypes → Bool
  askErrorHandlers : ClientAskErrorHandlers UpdateType ExcTypes Handler
  /-- What is raised out of an error handler, and not swallowed. -/
  handle : Handler → Exc → SentMessage → Option Exc

section Ask

variable {Value Json Exc Update : Type}

/-- The request of an ask: the message is edited if its id is given. -/
def AskArgs.request (args : AskArgs UpdateType ExcTypes Handler Value Json Exc)
    (isInlineKeyboardMarkup : Value → Bool) : Except (AskError Exc) (AskRequest Value) :=
  match args.messageId with
  | some messageId =>
    if (args.options .replyMarkup).any fun markup => !isInlineKeyboardMarkup markup then
      .error (.valueError "Edit mode only supports InlineKeyboardMarkup for reply_markup")
    else
      .ok (.edit args.chatId messageId args.text
        (fun o => if o.isEdit then args.options o else none) args.kw)
  | none => .ok (.send args.chatId args.text args.options args.kw)

/-- The metadata of the listener of an ask. If the caller gave none, or a dictionary without
    `message_id`, it gets the id of the message; a dictionary that has one is left as it is, and
    so is metadata that is no dictionary. -/
def askMeta (ofInt : ℤ → Json) (m : SentMessage) : Option (AskMeta Json) → AskMeta Json
  | none => .dict (OrderedDict.empty.set "message_id" (ofInt m.id))
  | some (.dict items) =>
    if (items.get? "message_id").isSome then .dict items
    else .dict (items.set "message_id" (ofInt m.id))
  | some (.other value) => .other value

namespace AskClient

variable (client : AskClient UpdateType ExcTypes Handler Value Json Exc Update)
  (args : AskArgs UpdateType ExcTypes Handler Value Json Exc)

/-- `final_chat_id`: the chat of the message, or else the one asked in. -/
def finalChatId (m : SentMessage) : AskChat → Except Exc ℤ
  | .id chatId => .ok (m.chat.getD chatId)
  | .name name =>
    match m.chat with
    | some chatId => .ok chatId
    | none => client.resolvePeer name

/-- What the listener of an ask is called with. -/
def listenRequest (m : SentMessage) : Except Exc (ListenRequest Value Json) :=
  match args.listenMessageId.resolve m with
  | .error exc => .error exc
  | .ok messageId =>
    match client.finalChatId m args.chatId with
    | .error exc => .error exc
    | .ok chatId =>
      .ok ⟨chatId, args.listenUserId, messageId, askMeta client.ofInt m args.metadata, args.timeout⟩

/-- What an ask does with what its listener raises. -/
def fail (m : SentMessage) (exc : Exc) : List (AskEvent Handler Value Json Exc) × AskError Exc :=
  if client.isException exc then
    match handleAskError (client.isinstance exc)
      [args.errorHandlers, (client.askErrorHandlers args.updateType).filter (!·.items.isEmpty)] with
    | some handler => ([.handle handler exc m], .raised ((client.handle handler exc m).getD exc))
    | none => ([], .raised exc)
  else ([], .raised exc)

/-- An ask waits for the answer to the message. -/
def wait (listener : ListenRequest Value Json → Except Exc Update) (m : SentMessage) :
    List (AskEvent Handler Value Json Exc) × Except (AskError Exc) Update :=
  match client.listenRequest args m with
  | .error exc => ([], .error (.raised exc))
  | .ok r =>
    match listener r with
    | .ok update => ([.listen r], .ok update)
    | .error exc =>
      (.listen r :: (client.fail args m exc).1, .error (client.fail args m exc).2)

/-- `Client.ask`: what it makes happen, and what it returns or raises. -/
def ask : List (AskEvent Handler Value Json Exc) × Except (AskError Exc) Update :=
  match client.listeners args.updateType with
  | none => ([], .error (.runtimeError ("No listener registered for " ++
      client.name args.updateType ++
      ". Register one via client.register_listener() before calling ask().")))
  | some listener =>
    match args.request client.isInlineKeyboardMarkup with
    | .error e => ([], .error e)
    | .ok request =>
      match client.perform request with
      | .error exc => ([.request request], .error (.raised exc))
      | .ok m =>
        (.request request :: (client.wait args listener m).1, (client.wait args listener m).2)

end AskClient

/-- A `Message`, as far as `Message.ask` reads it. -/
structure AskedMessage (Value : Type) where
  id : ℤ
  chat : ℤ
  service : Bool
  empty : Bool
  /-- `from_user.is_self`. -/
  fromSelf : Bool
  senderChat : Option ℤ
  messageThreadId : Option Value
  directMessagesTopicId : Option Value
  businessConnectionId : Option Value

namespace AskedMessage

variable (self : AskedMessage Value)

/-- `editable`, given the id of `client.me`. -/
def editable (me : Option ℤ) : Bool := self.fromSelf || self.senderChat = some (me.getD 0)

/-- The options that `Message.ask` passes on when it sends a message: it replies to this one, in
    its thread and topic, unless told otherwise. -/
def sendOptions (replyTo : ℤ → Value) (options : AskOption → Option Value) :
    AskOption → Option Value
  | .replyParameters => (options .replyParameters).or (some (replyTo self.id))
  | .messageThreadId => (options .messageThreadId).or self.messageThreadId
  | .directMessagesTopicId => (options .directMessagesTopicId).or self.directMessagesTopicId
  | .businessConnectionId => self.businessConnectionId
  | o => options o

/-- The options that `Message.ask` passes on when it edits this message. -/
def editOptions (options : AskOption → Option Value) : AskOption → Option Value
  | .businessConnectionId => self.businessConnectionId
  | o => options o

/-- `Message.ask`, up to its call of `Client.ask`. The arguments are as for this, but for the chat
    and the message. -/
def askArgs (me : Option ℤ) (replyTo : ℤ → Value) (forceSend : Bool)
    (args : AskArgs UpdateType ExcTypes Handler Value Json Exc) :
    Except (AskError Exc) (AskArgs UpdateType ExcTypes Handler Value Json Exc) :=
  if self.service || self.empty then
    .error (.valueError "Cannot call 'ask' on a service or empty message.")
  else if forceSend || !self.editable me then
    .ok { args with
      chatId := .id self.chat, messageId := none, options := self.sendOptions replyTo args.options }
  else if AskOption.all.any fun o => o.isSend && (args.options o).isSome then
    .error (.valueError ("Cannot pass additional send options when reusing an existing message. " ++
      "Use force_send=True to send a new message."))
  else
    .ok { args with
      chatId := .id self.chat, messageId := some self.id, options := self.editOptions args.options }

/-- `Message.ask`. -/
def ask (client : AskClient UpdateType ExcTypes Handler Value Json Exc Update) (me : Option ℤ)
    (replyTo : ℤ → Value) (forceSend : Bool)
    (args : AskArgs UpdateType ExcTypes Handler Value Json Exc) :
    List (AskEvent Handler Value Json Exc) × Except (AskError Exc) Update :=
  match self.askArgs me replyTo forceSend args with
  | .error e => ([], .error e)
  | .ok args => client.ask args

variable {self} {replyTo : ℤ → Value} {options : AskOption → Option Value} {o : AskOption}
  {v : Value}

/-- The options that are given are passed on. -/
theorem sendOptions_eq_some (ho : o ≠ .businessConnectionId) (hv : options o = some v) :
    self.sendOptions replyTo options o = some v := by
  cases o with
  | replyParameters | messageThreadId | directMessagesTopicId =>
    rw [sendOptions, hv, Option.some_or]
  | businessConnectionId => exact absurd rfl ho
  | _ => exact hv

/-- When the message is edited, they are options of an edit, as others are refused. -/
theorem editOptions_eq_some (ho : o ≠ .businessConnectionId) (hv : options o = some v)
    (hsend : ¬(AskOption.all.any fun o => o.isSend && (options o).isSome) = true) :
    o.isEdit = true ∧ self.editOptions options o = some v := by
  have hnot : o.isSend = false := by
    by_contra h
    refine hsend (List.any_eq_true.2 ⟨o, ?_, ?_⟩)
    · cases o <;> decide
    · rw [hv, Option.isSome_some, Bool.and_true]
      exact Bool.of_not_eq_false h
  cases o with
  | businessConnectionId => exact absurd rfl ho
  | parseMode | entities | linkPreviewOptions | replyMarkup => exact ⟨rfl, hv⟩
  | _ => cases hnot

end AskedMessage

variable {client : AskClient UpdateType ExcTypes Handler Value Json Exc Update}
  {args : AskArgs UpdateType ExcTypes Handler Value Json Exc} {request : AskRequest Value}

theorem AskClient.not_mem_fail {m : SentMessage} {exc : Exc} :
    AskEvent.request request ∉ (client.fail args m exc).1 := by
  rw [fail]
  split
  case isTrue =>
    split
    case h_1 => simp
    case h_2 => exact List.not_mem_nil
  case isFalse => exact List.not_mem_nil

theorem AskClient.not_mem_wait {listener : ListenRequest Value Json → Except Exc Update}
    {m : SentMessage} : AskEvent.request request ∉ (client.wait args listener m).1 := by
  rw [wait]
  split
  case h_1 => exact List.not_mem_nil
  case h_2 =>
    split
    case h_1 => simp
    case h_2 => simp [client.not_mem_fail]

/-- What an ask requests of the client. -/
theorem AskClient.request_of_mem (h : AskEvent.request request ∈ (client.ask args).1) :
    args.request client.isInlineKeyboardMarkup = .ok request := by
  rw [ask] at h
  split at h
  case h_1 => exact absurd h List.not_mem_nil
  case h_2 =>
    split at h
    case h_1 => exact absurd h List.not_mem_nil
    case h_2 request' hrequest =>
      have heq : request = request' := by
        split at h
        case h_1 => simpa using h
        case h_2 => simpa [client.not_mem_wait] using h
      rw [hrequest, heq]

namespace AskedMessage

variable {self : AskedMessage Value} {me : Option ℤ} {replyTo : ℤ → Value} {forceSend : Bool}
  {args' : AskArgs UpdateType ExcTypes Handler Value Json Exc}

theorem askArgs_cases (h : self.askArgs me replyTo forceSend args = .ok args') :
    (forceSend = true ∨ self.editable me = false) ∧
        args' = { args with
          chatId := .id self.chat, messageId := none,
          options := self.sendOptions replyTo args.options } ∨
      (forceSend = false ∧ self.editable me = true) ∧
        ¬(AskOption.all.any fun o => o.isSend && (args.options o).isSome) = true ∧
        args' = { args with
          chatId := .id self.chat, messageId := some self.id,
          options := self.editOptions args.options } := by
  rw [askArgs] at h
  split at h
  case isTrue => cases h
  case isFalse =>
    split at h
    case isTrue hsend =>
      cases h
      exact .inl ⟨by simpa using hsend, rfl⟩
    case isFalse hedit =>
      split at h
      case isTrue => cases h
      case isFalse hopt =>
        cases h
        exact .inr ⟨by simpa using hedit, hopt, rfl⟩

/-- `Message.ask` edits the message, if it can and may, or else sends one to its chat, as a reply
    unless told otherwise; and none of the options it is given is lost. -/
theorem request_of_mem_ask
    (h : AskEvent.request request ∈ (self.ask client me replyTo forceSend args).1) :
    ∃ options : AskOption → Option Value,
      (∀ o v, o ≠ .businessConnectionId → args.options o = some v → options o = some v) ∧
      options .businessConnectionId = self.businessConnectionId ∧
      (request = .edit (.id self.chat) self.id args.text options args.kw ∧
          forceSend = false ∧ self.editable me = true ∨
        request = .send (.id self.chat) args.text options args.kw ∧
          (forceSend = true ∨ self.editable me = false) ∧
          (args.options .replyParameters = none →
            options .replyParameters = some (replyTo self.id))) := by
  rw [ask] at h
  split at h
  case h_1 => exact absurd h List.not_mem_nil
  case h_2 args' hargs =>
    have hrequest := AskClient.request_of_mem h
    rcases askArgs_cases hargs with ⟨hsend, rfl⟩ | ⟨⟨hforce, hedit⟩, hopt, rfl⟩
    · cases hrequest
      refine ⟨_, fun o v ho hv => sendOptions_eq_some ho hv, rfl, .inr ⟨rfl, hsend, fun hn => ?_⟩⟩
      rw [sendOptions, hn, Option.none_or]
    · rw [AskArgs.request] at hrequest
      dsimp only at hrequest
      split at hrequest
      case isTrue => cases hrequest
      case isFalse =>
        cases hrequest
        refine ⟨_, fun o v ho hv => ?_, rfl, .inl ⟨rfl, hforce, hedit⟩⟩
        obtain ⟨hedit, hv⟩ := editOptions_eq_some ho hv hopt
        rw [if_pos hedit, hv]

theorem request_of_mem_ask_reply : ∃ (request : AskRequest ℕ) (options : AskOption → Option ℕ),
    (∀ o v, o ≠ .businessConnectionId →
      (fun o => if o = .protectContent then some 1 else none : AskOption → Option ℕ) o = some v →
        options o = some v) ∧
      options .businessConnectionId = none ∧
      (request = .edit (.id 100) 7 "Name?" options [] ∧ false = false ∧ false = true ∨
        request = .send (.id 100) "Name?" options [] ∧ (false = true ∨ false = false) ∧
          ((none : Option ℕ) = none → options .replyParameters = some 7)) := by
  let self : AskedMessage ℕ := ⟨7, 100, false, false, false, none, none, none, none⟩
  let client : AskClient Unit Unit Unit ℕ ℕ Unit Unit :=
    ⟨fun _ => "Message", fun _ => some fun _ => .ok (), fun _ => true, fun _ => .ok ⟨8, some 100⟩,
      fun _ => .ok 100, Int.toNat, fun _ => true, fun _ _ => true, fun _ => none, fun _ _ _ => none⟩
  let args : AskArgs Unit Unit Unit ℕ ℕ Unit :=
    ⟨.id 100, "Name?", none, fun o => if o = .protectContent then some 1 else none, none, .none, none,
      none, (), none, []⟩
  have h : AskEvent.request (.send (.id 100) "Name?" (self.sendOptions Int.toNat args.options) []) ∈
      (self.ask client none Int.toNat false args).1 := List.mem_cons_self
  exact ⟨_, request_of_mem_ask h⟩

end AskedMessage

end Ask

end Pyroflow
