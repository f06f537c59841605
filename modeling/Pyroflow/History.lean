import Pyroflow.Dispatcher
import Pyroflow.HistoryStore

/-!
# Update histories

`UpdateHistory`, on the in-memory store: which handlers processed the updates of a
conversation, kept for the handlers that come later. A handler is recorded by `record` or
`record_many`, or by the dispatcher, which records those that returned normally once it has gone
through the groups (`UpdateHistory.handle`).

The hooks tell whether an update is recorded, under which key, and with which data. They are
called first, and may raise; the store is then used once, or not at all. So each call comes down to
at most one operation on the records (`UpdateHistory.operation`, `UpdateHistory.exec_eq`).
-/

namespace Pyroflow

open Dispatcher

variable {Update K Data H Time : Type}

/-! ### Records and their store -/

/-- An `UpdateRecord`, as a reader sees it. -/
structure Recorded (H Data Time : Type) where
  handler : H
  data : Data
  createdAt : Time
  deriving DecidableEq, Repr

/-- The memory of a history: its store, and the handler and data of each `UpdateRecord` created so
    far, for this history or otherwise, in the order of creation. -/
structure HistoryMemory (M : Histories K Time) (H Data : Type) where
  store : MemoryUpdateHistoryStore M
  objects : List (H × Data) := []

/-- What is done with records: new ones are pushed under a key, those under a key are looked
    at, popped or deleted, or records are created elsewhere. -/
inductive RecordOperation (K H Data : Type)
  | push (key : K) (items : List (H × Data))
  | get (key : K)
  | pop (key : K)
  | delete (key : K)
  | create (items : List (H × Data))

namespace HistoryMemory

variable {M : Histories K Time} [LinearOrder Time] [Add Time]

omit [LinearOrder Time] [Add Time] in
/-- What a record holds. -/
def read (s : HistoryMemory M H Data) (r : UpdateRecord Time) : Option (Recorded H Data Time) :=
  s.objects[r.seq]?.map fun (handler, data) => ⟨handler, data, r.createdAt⟩

omit [LinearOrder Time] [Add Time] in
/-- `UpdateRecord(handler, data, now)` for each item: the records that this creates. -/
def created (s : HistoryMemory M H Data) (now : Time) (items : List (H × Data)) :
    List (UpdateRecord Time) :=
  (List.range' s.objects.length items.length).map fun seq => ⟨now, seq⟩

/-- An operation, at a time. -/
def apply (now : Time) (s : HistoryMemory M H Data) :
    RecordOperation K H Data → HistoryMemory M H Data
  | .push key items =>
    { store := s.store.update now key (s.created now items), objects := s.objects ++ items }
  | .get key => { s with store := (s.store.get now key).2 }
  | .pop key => { s with store := (s.store.pop now key).2 }
  | .delete key => { s with store := s.store.delete now key }
  | .create items => { s with objects := s.objects ++ items }

end HistoryMemory

/-! ### The history -/

/-- An `UpdateHistory`: what `is_recordable`, `extract_key` and `extract_data` return for an update,
    or raise. -/
structure UpdateHistory (Update K Data : Type) where
  isRecordable : Update → Except Raised Bool
  extractKey : Update → Except Raised K
  extractData : Update → Except Raised Data

/-- The argument of `get`, `pop` and `clear`: an update or a key. -/
inductive HistoryTarget (Update K : Type)
  | update (update : Update)
  | key (key : K)

/-- A call of a history, an update that the dispatcher handles, or records that are created
    elsewhere. -/
inductive HistoryCall (Update K H Data : Type)
  | record (update : Update) (handler : H) (check : Bool)
  | recordMany (update : Update) (handlers : List H) (check : Bool)
  | get (target : HistoryTarget Update K)
  | pop (target : HistoryTarget Update K)
  | clear (target : HistoryTarget Update K)
  | handle (update : Update) (groups : List (List (HandlerRun H)))
  | create (items : List (H × Data))

namespace UpdateHistory

variable {M : Histories K Time} [LinearOrder Time] [Add Time] (h : UpdateHistory Update K Data)
  (now : Time) (s : HistoryMemory M H Data)

/-- The key and the data to record for an update, if it is recordable: what `record` and
    `record_many` find out first. -/
def recording (update : Update) (check : Bool) : Except Raised (Option (K × Data)) := do
  let recordable ← if check then h.isRecordable update else pure true
  if recordable then
    let key ← h.extractKey update
    let data ← h.extractData update
    return some (key, data)
  else return none

/-- `record`. -/
def record (update : Update) (handler : H) (check : Bool) :
    Except Raised (HistoryMemory M H Data) :=
  (h.recording update check).map fun
    | some (key, data) =>
      { store := s.store.update now key (s.created now [(handler, data)])
        objects := s.objects ++ [(handler, data)] }
    | none => s

/-- `record_many`: the records are created at one time. -/
def recordMany (update : Update) (handlers : List H) (check : Bool) :
    Except Raised (HistoryMemory M H Data) :=
  (h.recording update check).map fun
    | some (key, data) =>
      let items := handlers.map fun handler => (handler, data)
      { store := s.store.update now key (s.created now items), objects := s.objects ++ items }
    | none => s

/-- The key that `get`, `pop` and `clear` use; none for an update that is not recordable. -/
def keyOf : HistoryTarget Update K → Except Raised (Option K)
  | .key key => return some key
  | .update update => do
    if ← h.isRecordable update then
      let key ← h.extractKey update
      return some key
    else return none

/-- `get`: the records, the oldest first. -/
def get (target : HistoryTarget Update K) :
    Except Raised (List (UpdateRecord Time) × HistoryMemory M H Data) :=
  (h.keyOf target).map fun
    | some key => ((s.store.get now key).1, { s with store := (s.store.get now key).2 })
    | none => ([], s)

/-- `pop`: the records, the oldest first. -/
def pop (target : HistoryTarget Update K) :
    Except Raised (List (UpdateRecord Time) × HistoryMemory M H Data) :=
  (h.keyOf target).map fun
    | some key => ((s.store.pop now key).1, { s with store := (s.store.pop now key).2 })
    | none => ([], s)

/-- `clear`. -/
def clear (target : HistoryTarget Update K) : Except Raised (HistoryMemory M H Data) :=
  (h.keyOf target).map fun
    | some key => { s with store := s.store.delete now key }
    | none => s

/-- What the dispatcher gets from the history of the type of an update. -/
def historyRun (update : Update) : HistoryRun where
  isRecordable := h.isRecordable update
  recordMany := (h.recording update false).map fun _ => ()

/-- The handlers that `_handle_update` hands to the history, with these handlers registered. -/
def handled (update : Update) (groups : List (List (HandlerRun H))) : List H :=
  (handleGroups (some (h.historyRun update)) groups).recorded

/-- `_handle_update` of an update that no listener takes: the history is called if there are
    handlers to record. -/
def handle (update : Update) (groups : List (List (HandlerRun H))) :
    Except Raised (HistoryMemory M H Data) :=
  match h.handled update groups with
  | [] => .ok s
  | handlers => h.recordMany now s update handlers false

/-- What a call leaves; what raises leaves all as it was. -/
def exec : HistoryCall Update K H Data → HistoryMemory M H Data
  | .record update handler check => (h.record now s update handler check).toOption.getD s
  | .recordMany update handlers check => (h.recordMany now s update handlers check).toOption.getD s
  | .get target => ((h.get now s target).map Prod.snd).toOption.getD s
  | .pop target => ((h.pop now s target).map Prod.snd).toOption.getD s
  | .clear target => (h.clear now s target).toOption.getD s
  | .handle update groups => (h.handle now s update groups).toOption.getD s
  | .create items => { s with objects := s.objects ++ items }

/-- What calls, each at its time, leave one after the other. -/
def run (calls : List (Time × HistoryCall Update K H Data)) : HistoryMemory M H Data :=
  calls.foldl (fun s call => h.exec call.1 s call.2) s

/-! ### One operation at most -/

/-- The handlers are pushed, if the update is to be recorded. -/
def pushing (update : Update) (handlers : List H) (check : Bool) :
    Option (RecordOperation K H Data) :=
  (h.recording update check).toOption.join.map fun (key, data) =>
    .push key (handlers.map fun handler => (handler, data))

/-- The operation on the records that a call comes down to, if any. -/
def operation : HistoryCall Update K H Data → Option (RecordOperation K H Data)
  | .record update handler check => h.pushing update [handler] check
  | .recordMany update handlers check => h.pushing update handlers check
  | .get target => (h.keyOf target).toOption.join.map .get
  | .pop target => (h.keyOf target).toOption.join.map .pop
  | .clear target => (h.keyOf target).toOption.join.map .delete
  | .handle update groups =>
    match h.handled update groups with
    | [] => none
    | handlers => h.pushing update handlers false
  | .create items => some (.create items)

variable {h now s}

/-- Recording one handler is recording a list of one. -/
theorem record_eq (update : Update) (handler : H) (check : Bool) :
    h.record now s update handler check = h.recordMany now s update [handler] check := rfl

theorem recordMany_eq (update : Update) (handlers : List H) (check : Bool) :
    (h.recordMany now s update handlers check).toOption.getD s =
      (h.pushing update handlers check).elim s (s.apply now) := by
  rw [recordMany, pushing]
  rcases h.recording update check with exc | _ | ⟨key, data⟩ <;> rfl

/-- A call does its operation, or nothing. -/
theorem exec_eq (call : HistoryCall Update K H Data) :
    h.exec now s call = (h.operation call).elim s (s.apply now) := by
  cases call with
  | record update handler check => exact recordMany_eq update [handler] check
  | recordMany update handlers check => exact recordMany_eq update handlers check
  | get target =>
    rw [exec, get, operation]
    rcases h.keyOf target with exc | _ | key <;> rfl
  | pop target =>
    rw [exec, pop, operation]
    rcases h.keyOf target with exc | _ | key <;> rfl
  | clear target =>
    rw [exec, clear, operation]
    rcases h.keyOf target with exc | _ | key <;> rfl
  | handle update groups =>
    rw [exec, handle, operation]
    cases h.handled update groups with
    | nil => rfl
    | cons handler handlers => exact recordMany_eq update (handler :: handlers) false
  | create items => rfl

end UpdateHistory

end Pyroflow
