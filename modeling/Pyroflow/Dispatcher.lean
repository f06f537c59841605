import Pyroflow.Models

/-!
# The dispatcher

`Dispatcher._handle_update`: an update is offered to the listener of its type
first (`handleListen`), and unless that stops its propagation, it goes through
the handler groups (`handleGroups`). In each group the handlers are tried in
order, up to the first whose callback ran and did not raise
`ContinuePropagation`; the handlers that succeeded are recorded in the history
of the type, if there is one.

What the rest of the program decides is given as data: what the awaited calls
return or raise. A handler comes with what its check and its callback do, should
they be called (`HandlerRun`).
-/

namespace Pyroflow.Dispatcher

/-! ### The listener -/

/-- What an awaited call raises, as far as the dispatcher tells it apart. -/
inductive Raised
  | stopPropagation
  | continuePropagation
  | unhandledUpdate
  /-- Any other `Exception`. -/
  | exception
  /-- `asyncio.CancelledError`, which is not an `Exception`. -/
  | cancelledError
  deriving DecidableEq

/-- What `except Exception` catches. -/
def Raised.isException (exc : Raised) : Bool := exc ≠ .cancelledError

/-- `Dispatcher.handle_listen`, given how `resolve` of the listener registered for the
    type ends, if there is one: if it returns, `stop_propagation()` raises. -/
def handleListen {Update : Type} : Option (Outcome Update Unit) → Except Raised Unit
  | none => .ok ()
  | some (.returned ()) => .error .stopPropagation
  | some (.raised .cancelledError) => .error .cancelledError
  | some (.raised _) => .ok ()

/-- Propagation is stopped if and only if `resolve` returns. -/
theorem handleListen_eq_stop_iff {Update : Type} {o : Outcome Update Unit} :
    handleListen (some o) = .error .stopPropagation ↔ o = .returned () := by
  rcases o with ⟨⟩ | exc
  · exact iff_of_true rfl rfl
  · cases exc <;> exact iff_of_false nofun nofun

/-- The update goes on if and only if `resolve` raises an `Exception`. -/
theorem handleListen_eq_ok_iff {Update : Type} {o : Outcome Update Unit} :
    handleListen (some o) = .ok () ↔ ∃ exc, o = .raised exc ∧ exc ≠ .cancelledError := by
  rcases o with ⟨⟩ | exc
  · exact iff_of_false nofun fun ⟨_, h, _⟩ => absurd h nofun
  · cases exc <;> simp [handleListen]

/-! ### The handler groups -/

variable {H : Type}

/-- What `isinstance` tells of a handler, in the order of the tests. -/
inductive HandlerKind
  /-- An `ErrorHandler`. -/
  | error
  /-- Of the `handler_type` of the update. -/
  | typed
  /-- A `RawUpdateHandler`. -/
  | raw
  | other
  deriving DecidableEq

/-- A handler of a group, with what its check and its callback do when they are
    called, and `handle_update_handler_exception` on an exception of the callback. -/
structure HandlerRun (H : Type) where
  handler : H
  kind : HandlerKind
  check : Except Raised Bool
  callback : Except Raised Unit
  onException : Except Raised Unit

/-- The arguments of a callback, after the client. -/
inductive Args
  /-- `(parsed_update,)` -/
  | parsed
  /-- `(update, users, chats)` -/
  | raw
  deriving DecidableEq

/-- The variables of the loop on the groups, and the callbacks invoked so far. -/
structure Progress (H : Type) where
  handledCount : ℕ
  excCount : ℕ
  records : Option (List H)
  invoked : List (H × Args)

/-- How a turn of the loop on a group ends. -/
inductive Turn
  /-- `continue`, to the next handler. -/
  | next
  /-- `break`, to the next group. -/
  | leave
  | raise (exc : Raised)
  deriving DecidableEq

namespace HandlerRun

variable (h : HandlerRun H)

/-- The arguments for a handler whose check passes; a check that raises fails. -/
def checked (args : Args) : Except Raised (Option Args) :=
  match h.check with
  | .ok true => .ok (some args)
  | .ok false => .ok none
  | .error exc => if exc.isException then .ok none else .error exc

/-- `args`, as the turn of the handler sets it. -/
def args : Except Raised (Option Args) :=
  match h.kind with
  | .error | .other => .ok none
  | .typed => h.checked .parsed
  | .raw => h.checked .raw

/-- The callback is invoked. -/
def invoke (args : Args) (p : Progress H) : Progress H × Turn :=
  let p := { p with invoked := p.invoked ++ [(h.handler, args)] }
  match h.callback with
  | .ok () =>
    ({ p with
      handledCount := p.handledCount + 1
      records := p.records.map (· ++ [h.handler]) }, .leave)
  | .error .continuePropagation => (p, .next)
  | .error .exception =>
    ({ p with excCount := p.excCount + 1 },
      match h.onException with
      | .ok () => .leave
      | .error exc => .raise exc)
  | .error exc => (p, .raise exc)

/-- The turn of a handler. -/
def run (p : Progress H) : Progress H × Turn :=
  match h.args with
  | .error exc => (p, .raise exc)
  | .ok none => (p, .next)
  | .ok (some args) => h.invoke args p

end HandlerRun

/-- The loop on the handlers of a group. -/
def runGroup : List (HandlerRun H) → Progress H → Progress H × Option Raised
  | [], p => (p, none)
  | h :: group, p =>
    match h.run p with
    | (p, .next) => runGroup group p
    | (p, .leave) => (p, none)
    | (p, .raise exc) => (p, some exc)

/-- The loop on the groups. -/
def runGroups : List (List (HandlerRun H)) → Progress H → Progress H × Option Raised
  | [], p => (p, none)
  | group :: groups, p =>
    match runGroup group p with
    | (p, none) => runGroups groups p
    | (p, some exc) => (p, some exc)

/-! ### The whole update -/

/-- The history of the type of the update: what `is_recordable` and `record_many` do. -/
structure HistoryRun where
  isRecordable : Except Raised Bool
  recordMany : Except Raised Unit

/-- What becomes of an update: the callbacks invoked, the handlers handed to the
    history, and the counts of `_handle_update`, or what it raises. -/
structure Handling (H : Type) where
  invoked : List (H × Args)
  recorded : List H
  result : Except Raised (ℕ × ℕ)

/-- `records`, before the loop. -/
def initialRecords : Option HistoryRun → Except Raised (Option (List H))
  | none => .ok none
  | some history =>
    match history.isRecordable with
    | .ok true => .ok (some [])
    | .ok false => .ok none
    | .error exc => if exc.isException then .ok none else .error exc

/-- The handlers that succeeded are recorded, if any. -/
def record (history : Option HistoryRun) (p : Progress H) : Handling H :=
  match history, p.records with
  | some history, some (h :: hs) =>
    ⟨p.invoked, h :: hs,
      match history.recordMany with
      | .error .cancelledError => .error .cancelledError
      | _ => .ok (p.handledCount, p.excCount)⟩
  | _, _ => ⟨p.invoked, [], .ok (p.handledCount, p.excCount)⟩

/-- `_handle_update` from the handler groups on. -/
def handleGroups (history : Option HistoryRun) (groups : List (List (HandlerRun H))) :
    Handling H :=
  match initialRecords history with
  | .error exc => ⟨[], [], .error exc⟩
  | .ok records =>
    match runGroups groups ⟨0, 0, records, []⟩ with
    | (p, some exc) => ⟨p.invoked, [], .error exc⟩
    | (p, none) => record history p

/-- `Dispatcher._handle_update`, given how `handle_listen` ends; of an update that is
    not parsed, there is no listener and no history. -/
def handleUpdate (listen : Except Raised Unit) (history : Option HistoryRun)
    (groups : List (List (HandlerRun H))) : Handling H :=
  match listen with
  | .error exc => ⟨[], [], .error exc⟩
  | .ok () => handleGroups history groups

end Pyroflow.Dispatcher
