import Pyroflow.Dispatcher
import Pyroflow.Lib.Lts
import Pyroflow.Lib.Mutex

/-!
# Coordinated updates

`Dispatcher.handle_update`, as a transition system: any number of deliveries of
updates, to any sessions, interleaved. What the sessions share is the backend of
an `UpdateCoordinator`, its locks and its registry of handled updates; a session
has nothing of its own that `handle_update` reads.

A delivery has a lock key, the scope it is processed in, and an update id, its
identity (`Delivery`). It goes on by steps (`Delivery.Step`), each a piece of code that
runs without suspending, or one operation of the backend:

* the lock is acquired, and with it a release (`Release`) is made;
* the identity is extracted, and looked up in the registry;
* `_handle_update` runs, unless the update is registered;
* the release is settled: the update is registered, if it counts as handled, and the
  lock is released.

A call of `mark_handled()` claims the settlement for a task of its own
(`Release.claimEarly`). As the context a handler runs in may outlive it, the call
may come at any time once the release is made. A call is one step, even if it comes from
another thread.

A lock is released without a check of who holds it (`Mutex.Action`). The hooks and the
registry may raise, a write to the registry may fail (which is logged), and an entry of
the registry may expire or be evicted. No task is cancelled.
-/

namespace Pyroflow

open Dispatcher

variable {Key Id : Type}

/-! ### The settlement -/

/-- The points of `_CoordinatedRelease._settle`. -/
inductive SettlePc
  /-- Of a task that has not started. -/
  | scheduled
  /-- In `coordinator.mark_handled(update_id)`. -/
  | marking
  /-- In `lock.release()`. -/
  | releasing
  | done
  deriving DecidableEq

/-- A `_CoordinatedRelease`: its early settlement, with the point the task has reached, its
    flag `_released`, and the update id, when it is known. -/
structure Release (Id : Type) where
  early : Option SettlePc
  released : Bool
  updateId : Option Id

namespace Release

/-- The release made when the lock is acquired. -/
def new : Release Id := ⟨none, false, none⟩

/-- `claim_early`, unless it returns `False`: the settlement is scheduled. -/
def claimEarly (r : Release Id) : Option (Release Id) :=
  if r.early.isSome || r.released then none else some { r with early := some .scheduled }

/-- `_settle(handled)`, up to its first suspension. -/
def settle (r : Release Id) (handled : Bool) : Release Id × SettlePc :=
  if r.released then (r, .done)
  else ({ r with released := true },
    if handled && r.updateId.isSome then .marking else .releasing)

end Release

/-- The calls a delivery makes that its settlement is about, and those of
    `mark_handled()` that returned `True`. -/
inductive Call
  /-- `lock.acquire()`, which returned `True`. -/
  | acquire
  /-- `mark_handled()`, which returned `True`. -/
  | claim
  /-- `coordinator.mark_handled(update_id)`. -/
  | mark
  /-- `lock.release()`. -/
  | release
  deriving DecidableEq

/-- The events of a settlement. A write to the registry may fail. -/
inductive SettleEvent
  | mark (ok : Bool)
  | release

/-- The steps of a settlement: the event, the call it makes, and what it does to the
    locks and the registry. -/
inductive SettlePc.Step [DecidableEq Id] (key : Key) (updateId : Option Id)
    (handled : Id → Bool) :
    SettlePc → SettleEvent → Call → Mutex.Action Key → (Id → Bool) → SettlePc → Prop
  | mark {id} (known : updateId = some id) :
      Step key updateId handled .marking (.mark true) .mark .keep
        (Function.update handled id true) .releasing
  | markFails : Step key updateId handled .marking (.mark false) .mark .keep handled .releasing
  | release : Step key updateId handled .releasing .release .release (.release key) handled .done

/-! ### Deliveries -/

/-- The points of `Dispatcher.handle_update`. -/
inductive DeliveryPc
  /-- In `is_coordinatable`. -/
  | coordinatable
  /-- In `coordinated.lock`. -/
  | locking
  /-- In `lock.acquire()`. -/
  | acquiring
  /-- In `_handle_update`, with no lock. -/
  | uncoordinated
  /-- In `extract_update_id`. -/
  | identifying
  /-- In `coordinator.is_handled(update_id)`. -/
  | checking
  /-- Back from it. -/
  | checked (handled : Bool)
  /-- In `_handle_update`. -/
  | running
  /-- In the `finally` block, settling. -/
  | settling (pc : SettlePc) (outcome : Except Raised Unit)
  /-- In the `finally` block, waiting for the early settlement. -/
  | awaiting (outcome : Except Raised Unit)
  | ended (outcome : Except Raised Unit)
  deriving DecidableEq

/-- A delivery of an update: what the hooks say of the update, if they do not raise, and
    how far `handle_update` has come. -/
structure Delivery (Key Id : Type) where
  /-- What `is_coordinatable` answers. -/
  coordinatable : Bool
  /-- The key of its lock, by `extract_key`. -/
  key : Key
  /-- Its identity, by `extract_update_id`. -/
  id : Id
  pc : DeliveryPc
  /-- The release, once the lock is acquired. -/
  release : Option (Release Id)
  /-- How `_handle_update` ended, if it ran. -/
  ran : Option (Except Raised (ℕ × ℕ))
  /-- The calls it has made, in order. -/
  calls : List Call

/-- Whether the end of `_handle_update` counts as handled: it raised `StopPropagation`, or
    a handler ran. -/
def countsAsHandled : Except Raised (ℕ × ℕ) → Bool
  | .error exc => exc = .stopPropagation
  | .ok (handledCount, excCount) => 1 ≤ handledCount + excCount

/-- `handle_update` returns nothing, or raises what `_handle_update` raised. -/
def outcomeOf : Except Raised (ℕ × ℕ) → Except Raised Unit
  | .error exc => .error exc
  | .ok _ => .ok ()

/-- The `finally` block up to its first suspension, given how the `try` block ended. -/
def Delivery.finish (dl : Delivery Key Id) (r : Release Id) (result : Except Raised (ℕ × ℕ)) :
    Delivery Key Id :=
  if r.early.isSome then { dl with pc := .awaiting (outcomeOf result) }
  else { dl with
    pc := .settling (r.settle (countsAsHandled result)).2 (outcomeOf result)
    release := some (r.settle (countsAsHandled result)).1 }

/-- The events of a delivery. -/
inductive DeliveryEvent
  /-- `is_coordinatable` answers, or raises. -/
  | coordinatable (ok : Bool)
  /-- `extract_key` answers, or raises. -/
  | lock (ok : Bool)
  /-- `lock.acquire()` answers, or raises. -/
  | acquire (answer : Option Bool)
  /-- `_handle_update` ends. -/
  | ran (result : Except Raised (ℕ × ℕ))
  /-- `extract_update_id` answers, or raises. -/
  | identify (raised : Option Raised)
  /-- `is_handled` answers, or raises. -/
  | check (raised : Option Raised)
  | checked
  /-- A call of `mark_handled()`, with its answer. -/
  | markHandled (answer : Bool)
  /-- The task of the early settlement starts. -/
  | earlyStart
  | early (event : SettleEvent)
  | settle (event : SettleEvent)
  /-- The settlement is over. -/
  | settled

section Steps

variable [DecidableEq Id]

/-- The steps of a delivery: the event, and what it does to the locks, to the
    registry and to the delivery. -/
inductive Delivery.Step (handled : Id → Bool) (dl : Delivery Key Id) :
    DeliveryEvent → Mutex.Action Key → (Id → Bool) → Delivery Key Id → Prop
  | coordinatable (pc : dl.pc = .coordinatable) (yes : dl.coordinatable = true) :
      Step handled dl (.coordinatable true) .keep handled { dl with pc := .locking }
  | notCoordinatable (pc : dl.pc = .coordinatable) (no : dl.coordinatable = false) :
      Step handled dl (.coordinatable true) .keep handled { dl with pc := .uncoordinated }
  /-- Setting the coordination up raises: the update is processed without. -/
  | coordinatableRaises (pc : dl.pc = .coordinatable) :
      Step handled dl (.coordinatable false) .keep handled { dl with pc := .uncoordinated }
  | lock (pc : dl.pc = .locking) :
      Step handled dl (.lock true) .keep handled { dl with pc := .acquiring }
  | lockRaises (pc : dl.pc = .locking) :
      Step handled dl (.lock false) .keep handled { dl with pc := .uncoordinated }
  | acquire (pc : dl.pc = .acquiring) :
      Step handled dl (.acquire (some true)) (.acquire dl.key) handled { dl with
        pc := .identifying
        release := some .new
        calls := dl.calls ++ [.acquire] }
  /-- The lock was not free in time: the update is skipped. -/
  | timeout (pc : dl.pc = .acquiring) :
      Step handled dl (.acquire (some false)) .keep handled { dl with pc := .ended (.ok ()) }
  | acquireRaises (pc : dl.pc = .acquiring) :
      Step handled dl (.acquire none) .keep handled { dl with pc := .uncoordinated }
  | uncoordinated {result} (pc : dl.pc = .uncoordinated) :
      Step handled dl (.ran result) .keep handled { dl with
        pc := .ended (outcomeOf result)
        ran := some result }
  | identify {r} (pc : dl.pc = .identifying) (rel : dl.release = some r) :
      Step handled dl (.identify none) .keep handled { dl with
        pc := .checking
        release := some { r with updateId := some dl.id } }
  | identifyRaises {r exc} (pc : dl.pc = .identifying) (rel : dl.release = some r) :
      Step handled dl (.identify (some exc)) .keep handled (dl.finish r (.error exc))
  | check (pc : dl.pc = .checking) :
      Step handled dl (.check none) .keep handled { dl with pc := .checked (handled dl.id) }
  | checkRaises {r exc} (pc : dl.pc = .checking) (rel : dl.release = some r) :
      Step handled dl (.check (some exc)) .keep handled (dl.finish r (.error exc))
  /-- A peer got there first. -/
  | drop {r} (pc : dl.pc = .checked true) (rel : dl.release = some r) :
      Step handled dl .checked .keep handled (dl.finish r (.ok (0, 0)))
  | process (pc : dl.pc = .checked false) :
      Step handled dl .checked .keep handled { dl with pc := .running }
  | ran {r result} (pc : dl.pc = .running) (rel : dl.release = some r) :
      Step handled dl (.ran result) .keep handled { dl.finish r result with ran := some result }
  | markHandled {r r'} (rel : dl.release = some r) (claimed : r.claimEarly = some r') :
      Step handled dl (.markHandled true) .keep handled { dl with
        release := some r'
        calls := dl.calls ++ [.claim] }
  | markHandledLate {r} (rel : dl.release = some r) (late : r.claimEarly = none) :
      Step handled dl (.markHandled false) .keep handled dl
  | earlyStart {r} (rel : dl.release = some r) (early : r.early = some .scheduled) :
      Step handled dl .earlyStart .keep handled { dl with
        release := some { (r.settle true).1 with early := some (r.settle true).2 } }
  | early {r e call a handled' sp sp'} (rel : dl.release = some r) (early : r.early = some sp)
      (step : sp.Step dl.key r.updateId handled e call a handled' sp') :
      Step handled dl (.early e) a handled' { dl with
        release := some { r with early := some sp' }
        calls := dl.calls ++ [call] }
  | settle {r e call a handled' sp sp' o} (pc : dl.pc = .settling sp o) (rel : dl.release = some r)
      (step : sp.Step dl.key r.updateId handled e call a handled' sp') :
      Step handled dl (.settle e) a handled' { dl with
        pc := .settling sp' o
        calls := dl.calls ++ [call] }
  | settled {o} (pc : dl.pc = .settling .done o) :
      Step handled dl .settled .keep handled { dl with pc := .ended o }
  | awaited {r o} (pc : dl.pc = .awaiting o) (rel : dl.release = some r)
      (early : r.early = some .done) :
      Step handled dl .settled .keep handled { dl with pc := .ended o }

end Steps

/-! ### The system -/

namespace Coordination

variable (Key Id) in
/-- A state of the deliveries and of the backend. -/
structure State where
  deliveries : ℕ → Option (Delivery Key Id)
  /-- The locks that are taken. -/
  locked : Key → Bool
  /-- The registry of handled updates. -/
  handled : Id → Bool

variable (Key Id) in
/-- The state before any delivery, with an empty registry. -/
def State.init : State Key Id where
  deliveries _ := none
  locked _ := false
  handled _ := false

/-- The labels of the steps. -/
inductive Label (Key Id : Type)
  /-- An update is delivered. -/
  | start (d : ℕ) (coordinatable : Bool) (key : Key) (id : Id)
  | deliver (d : ℕ) (event : DeliveryEvent)
  /-- An entry of the registry expires, or is evicted. -/
  | expire (id : Id)

variable [DecidableEq Key] [DecidableEq Id]

/-- The steps of the deliveries. -/
inductive Step : State Key Id → Label Key Id → State Key Id → Prop
  | start {s d coordinatable key id} (new : s.deliveries d = none) :
      Step s (.start d coordinatable key id) { s with
        deliveries := Function.update s.deliveries d
          (some ⟨coordinatable, key, id, .coordinatable, none, none, []⟩) }
  | deliver {s d dl e a handled dl'} (found : s.deliveries d = some dl)
      (step : dl.Step s.handled e a handled dl') (enabled : a.Enabled s.locked) :
      Step s (.deliver d e) {
        deliveries := Function.update s.deliveries d (some dl')
        locked := a.apply s.locked
        handled := handled }
  | expire {s id} : Step s (.expire id) { s with handled := Function.update s.handled id false }

variable (Key Id) in
/-- The deliveries, as a transition system. -/
def coordinationLts : Lts (State Key Id) (Label Key Id) where
  init s := s = .init Key Id
  step := Step

end Coordination

end Pyroflow
