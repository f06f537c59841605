import Mathlib.Tactic.Simps.Basic
import Pyroflow.Coordinator
import Pyroflow.Lib.Lts
import Pyroflow.Lib.Mutex

/-!
# Update listeners

`UpdateListener`, as a transition system: any number of calls of `listen`,
`resolve` and `cancel`, on the listeners of some sessions, interleaved. The
sessions share the backend of a coordinator and the chat locks; each has its
own local map, `listeners`. One listener over the in-memory coordinator is the
case of a single session.

A call is its arguments and the point it has reached (`ListenPc`, `ResolvePc`,
`CancelPc`). It goes on by steps (`ListenCall.Step`, `ResolveCall.Step`,
`CancelCall.Step`), each being a piece of its code that runs without suspending,
or one operation of the coordinator, which is taken to succeed. What else may
happen (`Step`) is that

* a call starts;
* a timer fires, or a task is cancelled, where the code suspends: for a chat
  lock, in a hook, or on the future of the listener (`wait_for`). A wait for a
  lock that gives up looks like a cancellation there;
* the done-callback of a completed future runs, some time later;
* a cancel signal published on the backend is applied, at any time after its
  publication, by any session, any number of times, or never;
* a coordinator is stopped. What `UpdateListener.stop` does before is to make
  calls of `cancel`.

A chat lock is given back together with the last piece of code of its critical
section, by an action that does not check who holds it (`Mutex.Action`).

The future of a `listen` call is named by the call, and made with it; it stays
pending until the call waits on it. As in Python, completing a future that is
done raises `InvalidStateError`.
-/

namespace Pyroflow

variable {Sess : Type}

/-! ### Calls -/

/-- Why a call waiting on its future is woken up, besides the future being done. -/
inductive Interrupt
  | none
  /-- The timer of `wait_for` fired. -/
  | timeout
  /-- The task was cancelled. -/
  | cancel
  deriving DecidableEq

/-- The points of `UpdateListener.listen`. -/
inductive ListenPc (Token Update : Type)
  /-- Waiting for the chat lock. -/
  | waitLock
  /-- In `coordinator.registered(key)`. -/
  | lookup
  /-- Back from it. -/
  | looked (registered : Bool)
  /-- In `coordinator.cancel(key)`, the duplicate being cancelled locally. -/
  | replacing
  /-- In `coordinator.register(key)`. -/
  | registering
  /-- Back from it. -/
  | registered (coordinatorId : Token)
  /-- In `wait_for`, the chat lock given back. -/
  | waiting (coordinatorId : Token) (interrupt : Interrupt)
  /-- In the `finally` block, waiting for the chat lock. -/
  | finalizing (coordinatorId : Token) (outcome : Outcome Update Update)
  /-- In `coordinator.unregister(key, coordinator_id)`. -/
  | unregistering (coordinatorId : Token) (outcome : Outcome Update Update)
  /-- The call has ended, having obtained a token or not. -/
  | ended (coordinatorId : Option Token) (outcome : Outcome Update Update)

/-- The points of `UpdateListener.resolve`. -/
inductive ResolvePc (Token Update Metadata : Type)
  /-- In `is_listenable`. -/
  | listenable
  /-- In `extract_key`. -/
  | extracting
  /-- Waiting for the chat lock. -/
  | waitLock (key : ListenerKey)
  /-- In the loop on the sub-keys, with those left. -/
  | scanning (key : ListenerKey) (subs : List ListenerKey)
  /-- In `coordinator.registered(sub, listener.coordinator_id)`. -/
  | checking (key sub : ListenerKey) (listener : ListenerModel Token Metadata)
      (subs : List ListenerKey)
  /-- Back from it. -/
  | checked (key sub : ListenerKey) (listener : ListenerModel Token Metadata)
      (subs : List ListenerKey) (registered : Bool)
  /-- In `is_bypass`. -/
  | bypassing (key sub : ListenerKey) (listener : ListenerModel Token Metadata)
  /-- In `coordinator.cancel(sub)`, the bypassed listener being cancelled locally. -/
  | bypassed (key sub : ListenerKey)
  /-- At `on_unresolved`, the chat lock given back. -/
  | unresolved (key : ListenerKey)
  | ended (outcome : Outcome Update Unit)

/-- The points of `UpdateListener.cancel`. -/
inductive CancelPc (Update : Type)
  /-- Waiting for the chat lock. -/
  | waitLock
  /-- At the start of `_cancel`. -/
  | cancelling
  /-- In `coordinator.cancel(key)`. -/
  | coordinator
  | ended (outcome : Outcome Update Bool)

/-- A call of `listen`: its session, its key, the metadata of its listener, and
    `self.duplicate_policy` as it reads it. -/
structure ListenCall (C : ListenerCoordinator Sess) (Update Metadata : Type) where
  session : Sess
  key : ListenerKey
  metadata : Option Metadata
  policy : DuplicatePolicy
  pc : ListenPc C.Token Update

/-- A call of `resolve`. -/
structure ResolveCall (C : ListenerCoordinator Sess) (Update Metadata : Type) where
  session : Sess
  update : Update
  pc : ResolvePc C.Token Update Metadata

/-- A call of `cancel`, possibly by `_apply_cancel_signal`. -/
structure CancelCall (C : ListenerCoordinator Sess) (Update : Type) where
  session : Sess
  key : ListenerKey
  cancelCoordinator : Bool
  isDuplicate : Bool
  coordinatorId : Option C.Token
  isSignal : Bool
  pc : CancelPc Update

/-- Who may hold a chat lock. -/
inductive Owner
  | listen (c : CallId)
  | resolve (r : CallId)
  | cancel (x : CallId)
  deriving DecidableEq

variable {C : ListenerCoordinator Sess} {Update Metadata : Type}

/-- The chat lock a `listen` call holds. -/
def ListenCall.holds (call : ListenCall C Update Metadata) : Option ℤ :=
  match call.pc with
  | .lookup | .looked _ | .replacing | .registering | .registered _ | .unregistering .. =>
    some call.key.chatId
  | _ => none

/-- The chat lock a `resolve` call holds. -/
def ResolveCall.holds (call : ResolveCall C Update Metadata) : Option ℤ :=
  match call.pc with
  | .scanning key _ | .checking key .. | .checked key .. | .bypassing key .. | .bypassed key _ =>
    some key.chatId
  | _ => none

/-- The chat lock a `cancel` call holds. -/
def CancelCall.holds (call : CancelCall C Update) : Option ℤ :=
  match call.pc with
  | .cancelling | .coordinator => some call.key.chatId
  | _ => none

/-- The token a `listen` call has obtained. -/
def ListenCall.token (call : ListenCall C Update Metadata) : Option C.Token :=
  match call.pc with
  | .registered t | .waiting t _ | .finalizing t _ | .unregistering t _ => some t
  | .ended t _ => t
  | _ => none

/-! ### What the calls share -/

variable (C Update Metadata) in
/-- What the calls share, besides the chat locks. -/
structure Shared where
  /-- `listeners`, of each session. -/
  listeners : Sess → ListenerKey → Option (ListenerModel C.Token Metadata)
  /-- The futures of the `listen` calls. -/
  futures : CallId → Future Update
  /-- The done-callbacks scheduled and not run. -/
  callbacks : CallId → Bool
  /-- The backend of the coordinators. -/
  backend : C.State

namespace Shared

variable (m : Shared C Update Metadata)

@[simps] def setBackend (b : C.State) : Shared C Update Metadata := { m with backend := b }

/-- The future of the call `c`, which is pending, is completed: its done-callback
    is scheduled. -/
@[simps] def complete (c : CallId) (f : Future Update) : Shared C Update Metadata :=
  { m with
    futures := Function.update m.futures c f
    callbacks := Function.update m.callbacks c true }

/-- What `wait_for` gives to the waiting call `c`, as `listen` returns or raises it:
    a fired timer is a `ListenerTimeout`, even if the future holds a result. -/
def waitOutcome (c : CallId) (key : ListenerKey) : Interrupt → Outcome Update Update
  | .timeout => .raised (.listenerTimeout key)
  | .cancel => .raised .cancelledError
  | .none =>
    match m.futures c with
    | .result update _ => .returned update
    | .exception exc => .raised exc
    | .cancelled | .pending => .raised .cancelledError

/-- The `except` blocks of `listen`: a listener that is not done fails with the
    exception. -/
def failWaiter (c : CallId) : Outcome Update Update → Shared C Update Metadata
  | .returned _ => m
  | .raised exc => if (m.futures c).done then m else m.complete c (.exception exc)

/-- A timer or a cancellation reaches the future the call `c` waits on, and
    cancels it, unless it is done. -/
def cancelFuture (c : CallId) : Shared C Update Metadata :=
  if (m.futures c).done then m else m.complete c .cancelled

variable [DecidableEq Sess]

/-- `listeners[key] = listener`, or `listeners.pop(key)`. -/
@[simps] def setListener (σ : Sess) (key : ListenerKey)
    (listener : Option (ListenerModel C.Token Metadata)) : Shared C Update Metadata :=
  { m with
    listeners := Function.update m.listeners σ (Function.update (m.listeners σ) key listener) }

/-- How the local part of `_cancel` goes on. -/
inductive Head
  /-- `return False`: the listener is of another generation. -/
  | stale
  /-- `set_exc` raises `InvalidStateError`. -/
  | invalid
  /-- To the coordinator, if it is to be cancelled too. -/
  | proceed
  deriving DecidableEq

/-- The local part of `_cancel`: unless it is of another generation, the listener
    under the key is removed and its future fails with `ListenerCancelled`. -/
def cancel (σ : Sess) (key : ListenerKey) (isDuplicate : Bool) (coordinatorId : Option C.Token) :
    Shared C Update Metadata × Head :=
  match m.listeners σ key with
  | none => (m, .proceed)
  | some listener =>
    if coordinatorId ≠ none ∧ listener.coordinatorId ≠ coordinatorId then (m, .stale)
    else if (m.futures listener.future).done then (m.setListener σ key none, .invalid)
    else
      ((m.setListener σ key none).complete listener.future
        (.exception (.listenerCancelled key isDuplicate)), .proceed)

/-- `_cleanup_listen`: the listener under the key is removed, if it is that of the
    call `c`. -/
def cleanupListen (σ : Sess) (key : ListenerKey) (c : CallId) : Shared C Update Metadata :=
  match m.listeners σ key with
  | none => m
  | some listener => if listener.future = c then m.setListener σ key none else m

/-- The done-callback of the call `c` is run. -/
def callback (σ : Sess) (key : ListenerKey) (c : CallId) : Shared C Update Metadata :=
  { m.cleanupListen σ key c with callbacks := Function.update m.callbacks c false }

end Shared

/-! ### The steps of a call -/

section Steps

variable [DecidableEq Sess]

/-- The events of a call of `listen`. -/
inductive ListenEvent
  | lock
  | lookup
  | looked
  | replace
  | register
  | store
  | timer
  | interrupt
  | wake
  | relock
  | unregister
  | callback

/-- The steps of the call `c` of `listen`: the event, what it does to the chat
    locks and to what is shared, and the point it comes to. -/
inductive ListenCall.Step (c : CallId) (m : Shared C Update Metadata)
    (call : ListenCall C Update Metadata) :
    ListenEvent → Mutex.Action ℤ → Shared C Update Metadata → ListenPc C.Token Update → Prop
  | lock (pc : call.pc = .waitLock) : Step c m call .lock (.acquire call.key.chatId) m .lookup
  | lookup (pc : call.pc = .lookup) :
      Step c m call .lookup .keep m (.looked (C.registered m.backend call.session call.key none))
  /-- `raise ListenerAlreadyExists(key)` -/
  | reject (pc : call.pc = .looked true) (policy : call.policy = .reject) :
      Step c m call .looked (.release call.key.chatId) m
        (.ended none (.raised (.listenerAlreadyExists call.key)))
  /-- `await self._cancel(key, is_duplicate=True)` -/
  | replace (pc : call.pc = .looked true) (policy : call.policy = .replace)
      (head : (m.cancel call.session call.key true none).2 = .proceed) :
      Step c m call .looked .keep (m.cancel call.session call.key true none).1 .replacing
  | replaceInvalid (pc : call.pc = .looked true) (policy : call.policy = .replace)
      (head : (m.cancel call.session call.key true none).2 = .invalid) :
      Step c m call .looked (.release call.key.chatId) (m.cancel call.session call.key true none).1
        (.ended none (.raised .invalidState))
  /-- `raise RuntimeError("ListenerCoordinator and listeners are out of sync")` -/
  | outOfSync (pc : call.pc = .looked false) (stale : m.listeners call.session call.key ≠ none) :
      Step c m call .looked (.release call.key.chatId) m (.ended none (.raised .outOfSync))
  | proceed (pc : call.pc = .looked false) (free : m.listeners call.session call.key = none) :
      Step c m call .looked .keep m .registering
  | replaced (pc : call.pc = .replacing) :
      Step c m call .replace .keep (m.setBackend (C.cancel m.backend call.session call.key).2)
        .registering
  | register {t b} (pc : call.pc = .registering)
      (reg : C.Registers m.backend call.session call.key t b) :
      Step c m call .register .keep (m.setBackend b) (.registered t)
  | registerFails (pc : call.pc = .registering)
      (reg : C.RegisterFails m.backend call.session call.key) :
      Step c m call .register (.release call.key.chatId) m
        (.ended none (.raised (.keyError call.key)))
  /-- `self.listeners[key] = listener` -/
  | store {t} (pc : call.pc = .registered t) :
      Step c m call .store (.release call.key.chatId)
        (m.setListener call.session call.key (some ⟨call.key, call.metadata, c, some t⟩))
        (.waiting t .none)
  /-- The timer of `wait_for` fires: the task is cancelled by it. -/
  | timer {t} (pc : call.pc = .waiting t .none) :
      Step c m call .timer .keep (m.cancelFuture c) (.waiting t .timeout)
  | interruptWait {t i} (pc : call.pc = .waiting t i) :
      Step c m call .interrupt .keep (m.cancelFuture c) (.waiting t .cancel)
  | interruptLock (pc : call.pc = .waitLock) :
      Step c m call .interrupt .keep m (.ended none (.raised .cancelledError))
  /-- The `finally` block is left at its lock: nothing is unregistered. -/
  | interruptFinally {t o} (pc : call.pc = .finalizing t o) :
      Step c m call .interrupt .keep m (.ended (some t) (.raised .cancelledError))
  /-- `wait_for` returns or raises; the `except` blocks, and `self._cleanup_listen(key, fut)`. -/
  | wake {t i} (pc : call.pc = .waiting t i) (awake : i ≠ .none ∨ m.futures c ≠ .pending) :
      Step c m call .wake .keep
        ((m.failWaiter c (m.waitOutcome c call.key i)).cleanupListen call.session call.key c)
        (.finalizing t (m.waitOutcome c call.key i))
  | relock {t o} (pc : call.pc = .finalizing t o) :
      Step c m call .relock (.acquire call.key.chatId) m (.unregistering t o)
  | unregister {t o} (pc : call.pc = .unregistering t o) :
      Step c m call .unregister (.release call.key.chatId)
        (m.setBackend (C.unregister m.backend call.session call.key (some t)).2)
        (.ended (some t) o)
  /-- The done-callback, `partial(self._cleanup_listen, key)`. -/
  | callback (scheduled : m.callbacks c = true) :
      Step c m call .callback .keep (m.callback call.session call.key c) call.pc

/-- The events of a call of `resolve`. The answer of a hook is `none` when it
    raises. -/
inductive ResolveEvent
  | listenable (answer : Option Bool)
  | key (answer : Option ListenerKey)
  | lock
  | scan
  | check
  | checked
  | bypass (answer : Option Bool)
  | cancel
  | unresolved
  | interrupt

/-- The steps of the call `r` of `resolve`. -/
inductive ResolveCall.Step (r : CallId) (m : Shared C Update Metadata)
    (call : ResolveCall C Update Metadata) :
    ResolveEvent → Mutex.Action ℤ → Shared C Update Metadata →
      ResolvePc C.Token Update Metadata → Prop
  | listenable (pc : call.pc = .listenable) :
      Step r m call (.listenable (some true)) .keep m .extracting
  /-- `raise UnresolvedUpdate(update)` -/
  | notListenable (pc : call.pc = .listenable) :
      Step r m call (.listenable (some false)) .keep m
        (.ended (.raised (.unresolvedUpdate call.update)))
  | listenableRaises (pc : call.pc = .listenable) :
      Step r m call (.listenable none) .keep m (.ended (.raised .hookError))
  | key {key} (pc : call.pc = .extracting) (listeners : m.listeners call.session ≠ fun _ => none) :
      Step r m call (.key (some key)) .keep m (.waitLock key)
  /-- `if listeners:` fails, and with it goes the whole rest of the body. -/
  | noListeners {key} (pc : call.pc = .extracting)
      (listeners : m.listeners call.session = fun _ => none) :
      Step r m call (.key (some key)) .keep m (.ended (.returned ()))
  | keyRaises (pc : call.pc = .extracting) :
      Step r m call (.key none) .keep m (.ended (.raised .hookError))
  | lock {key} (pc : call.pc = .waitLock key) :
      Step r m call .lock (.acquire key.chatId) m (.scanning key key.subKeys)
  | scanNone {key sub subs} (pc : call.pc = .scanning key (sub :: subs))
      (none : m.listeners call.session sub = none) :
      Step r m call .scan .keep m (.scanning key subs)
  | scan {key sub subs listener} (pc : call.pc = .scanning key (sub :: subs))
      (some : m.listeners call.session sub = some listener) :
      Step r m call .scan .keep m (.checking key sub listener subs)
  /-- The loop is over; the critical section is left. -/
  | scanned {key} (pc : call.pc = .scanning key []) :
      Step r m call .scan (.release key.chatId) m (.unresolved key)
  | check {key sub listener subs} (pc : call.pc = .checking key sub listener subs) :
      Step r m call .check .keep m (.checked key sub listener subs
        (C.registered m.backend call.session sub listener.coordinatorId))
  | owned {key sub listener subs} (pc : call.pc = .checked key sub listener subs true) :
      Step r m call .checked .keep m (.bypassing key sub listener)
  /-- The listener was superseded: it is cancelled locally, and the loop goes on. -/
  | superseded {key sub listener subs} (pc : call.pc = .checked key sub listener subs false)
      (head : (m.cancel call.session sub false listener.coordinatorId).2 ≠ .invalid) :
      Step r m call .checked .keep (m.cancel call.session sub false listener.coordinatorId).1
        (.scanning key subs)
  | supersededInvalid {key sub listener subs}
      (pc : call.pc = .checked key sub listener subs false)
      (head : (m.cancel call.session sub false listener.coordinatorId).2 = .invalid) :
      Step r m call .checked (.release key.chatId)
        (m.cancel call.session sub false listener.coordinatorId).1 (.ended (.raised .invalidState))
  | bypassRaises {key sub listener} (pc : call.pc = .bypassing key sub listener) :
      Step r m call (.bypass none) (.release key.chatId) m (.ended (.raised .hookError))
  /-- The listener is bypassed: it is cancelled, locally first. -/
  | bypass {key sub listener} (pc : call.pc = .bypassing key sub listener)
      (head : (m.cancel call.session sub false listener.coordinatorId).2 = .proceed) :
      Step r m call (.bypass (some true)) .keep
        (m.cancel call.session sub false listener.coordinatorId).1 (.bypassed key sub)
  | bypassStale {key sub listener} (pc : call.pc = .bypassing key sub listener)
      (head : (m.cancel call.session sub false listener.coordinatorId).2 = .stale) :
      Step r m call (.bypass (some true)) (.release key.chatId)
        (m.cancel call.session sub false listener.coordinatorId).1
        (.ended (.raised (.unresolvedUpdate call.update)))
  | bypassInvalid {key sub listener} (pc : call.pc = .bypassing key sub listener)
      (head : (m.cancel call.session sub false listener.coordinatorId).2 = .invalid) :
      Step r m call (.bypass (some true)) (.release key.chatId)
        (m.cancel call.session sub false listener.coordinatorId).1 (.ended (.raised .invalidState))
  | bypassed {key sub} (pc : call.pc = .bypassed key sub) :
      Step r m call .cancel (.release key.chatId)
        (m.setBackend (C.cancel m.backend call.session sub).2)
        (.ended (.raised (.unresolvedUpdate call.update)))
  /-- `listener.resolve(update)`, and `return` -/
  | deliver {key sub listener} (pc : call.pc = .bypassing key sub listener)
      (pending : m.futures listener.future = .pending) :
      Step r m call (.bypass (some false)) (.release key.chatId)
        (m.complete listener.future (.result call.update r)) (.ended (.returned ()))
  | deliverInvalid {key sub listener} (pc : call.pc = .bypassing key sub listener)
      (done : m.futures listener.future ≠ .pending) :
      Step r m call (.bypass (some false)) (.release key.chatId) m (.ended (.raised .invalidState))
  /-- `on_unresolved`, by default. -/
  | unresolved {key} (pc : call.pc = .unresolved key) :
      Step r m call .unresolved .keep m (.ended (.raised (.unresolvedUpdate call.update)))
  | interrupt
      (pc : call.pc = .listenable ∨ call.pc = .extracting ∨ ∃ key, call.pc = .waitLock key) :
      Step r m call .interrupt .keep m (.ended (.raised .cancelledError))
  | interruptBypass {key sub listener} (pc : call.pc = .bypassing key sub listener) :
      Step r m call .interrupt (.release key.chatId) m (.ended (.raised .cancelledError))

/-- The events of a call of `cancel`. -/
inductive CancelEvent
  | lock
  | head
  | coordinator
  | interrupt

/-- The steps of a call of `cancel`. -/
inductive CancelCall.Step (m : Shared C Update Metadata) (call : CancelCall C Update) :
    CancelEvent → Mutex.Action ℤ → Shared C Update Metadata → CancelPc Update → Prop
  | lock (pc : call.pc = .waitLock) : Step m call .lock (.acquire call.key.chatId) m .cancelling
  | stale (pc : call.pc = .cancelling)
      (head : (m.cancel call.session call.key call.isDuplicate call.coordinatorId).2 = .stale) :
      Step m call .head (.release call.key.chatId)
        (m.cancel call.session call.key call.isDuplicate call.coordinatorId).1
        (.ended (.returned false))
  | invalid (pc : call.pc = .cancelling)
      (head : (m.cancel call.session call.key call.isDuplicate call.coordinatorId).2 = .invalid) :
      Step m call .head (.release call.key.chatId)
        (m.cancel call.session call.key call.isDuplicate call.coordinatorId).1
        (.ended (.raised .invalidState))
  | onlyLocal (pc : call.pc = .cancelling) (only : call.cancelCoordinator = false)
      (head : (m.cancel call.session call.key call.isDuplicate call.coordinatorId).2 = .proceed) :
      Step m call .head (.release call.key.chatId)
        (m.cancel call.session call.key call.isDuplicate call.coordinatorId).1
        (.ended (.returned true))
  | proceed (pc : call.pc = .cancelling) (both : call.cancelCoordinator = true)
      (head : (m.cancel call.session call.key call.isDuplicate call.coordinatorId).2 = .proceed) :
      Step m call .head .keep
        (m.cancel call.session call.key call.isDuplicate call.coordinatorId).1 .coordinator
  | coordinator (pc : call.pc = .coordinator) :
      Step m call .coordinator (.release call.key.chatId)
        (m.setBackend (C.cancel m.backend call.session call.key).2) (.ended (.returned true))
  | interrupt (pc : call.pc = .waitLock) :
      Step m call .interrupt .keep m (.ended (.raised .cancelledError))

end Steps

/-! ### The system -/

variable (C Update Metadata) in
/-- A state of the listeners of the sessions. -/
structure State where
  shared : Shared C Update Metadata
  /-- The chat locks that are taken. -/
  locked : ℤ → Bool
  listens : CallId → Option (ListenCall C Update Metadata)
  resolves : CallId → Option (ResolveCall C Update Metadata)
  cancels : CallId → Option (CancelCall C Update)

variable (C Update Metadata) in
/-- The state before any call. -/
def State.init : State C Update Metadata where
  shared := ⟨fun _ _ => none, fun _ => .pending, fun _ => false, C.init⟩
  locked _ := false
  listens _ := none
  resolves _ := none
  cancels _ := none

/-- The labels of the steps. -/
inductive Label (C : ListenerCoordinator Sess) (Update Metadata : Type)
  | startListen (c : CallId) (session : Sess) (key : ListenerKey) (metadata : Option Metadata)
      (policy : DuplicatePolicy)
  | listen (c : CallId) (event : ListenEvent)
  | startResolve (r : CallId) (session : Sess) (update : Update)
  | resolve (r : CallId) (event : ResolveEvent)
  | startCancel (x : CallId) (session : Sess) (key : ListenerKey)
      (cancelCoordinator isDuplicate : Bool) (coordinatorId : Option C.Token)
  /-- `_apply_cancel_signal(key, coordinator_id)`, of a session. -/
  | signal (x : CallId) (session : Sess) (key : ListenerKey) (coordinatorId : C.Token)
  | cancel (x : CallId) (event : CancelEvent)
  /-- `coordinator.stop()`, of a session. -/
  | stop (session : Sess)

variable [DecidableEq Sess]

/-- The steps of the listeners. -/
inductive Step :
    State C Update Metadata → Label C Update Metadata → State C Update Metadata → Prop
  | startListen {s c σ key metadata policy} (new : s.listens c = none) :
      Step s (.startListen c σ key metadata policy) { s with
        listens := Function.update s.listens c (some ⟨σ, key, metadata, policy, .waitLock⟩) }
  | listen {s c call e a m pc} (running : s.listens c = some call)
      (step : call.Step c s.shared e a m pc) (enabled : a.Enabled s.locked) :
      Step s (.listen c e) { s with
        shared := m
        locked := a.apply s.locked
        listens := Function.update s.listens c (some { call with pc := pc }) }
  | startResolve {s r σ update} (new : s.resolves r = none) :
      Step s (.startResolve r σ update) { s with
        resolves := Function.update s.resolves r (some ⟨σ, update, .listenable⟩) }
  | resolve {s r call e a m pc} (running : s.resolves r = some call)
      (step : call.Step r s.shared e a m pc) (enabled : a.Enabled s.locked) :
      Step s (.resolve r e) { s with
        shared := m
        locked := a.apply s.locked
        resolves := Function.update s.resolves r (some { call with pc := pc }) }
  | startCancel {s x σ key cancelCoordinator isDuplicate coordinatorId}
      (new : s.cancels x = none) :
      Step s (.startCancel x σ key cancelCoordinator isDuplicate coordinatorId) { s with
        cancels := Function.update s.cancels x
          (some ⟨σ, key, cancelCoordinator, isDuplicate, coordinatorId, false, .waitLock⟩) }
  | signal {s x σ key t} (new : s.cancels x = none)
      (published : C.Signalled s.shared.backend key t) :
      Step s (.signal x σ key t) { s with
        cancels := Function.update s.cancels x
          (some ⟨σ, key, false, false, some t, true, .waitLock⟩) }
  | cancel {s x call e a m pc} (running : s.cancels x = some call)
      (step : call.Step s.shared e a m pc) (enabled : a.Enabled s.locked) :
      Step s (.cancel x e) { s with
        shared := m
        locked := a.apply s.locked
        cancels := Function.update s.cancels x (some { call with pc := pc }) }
  | stop {s σ} :
      Step s (.stop σ)
        { s with shared := s.shared.setBackend (C.stop s.shared.backend σ) }

variable (C Update Metadata) in
/-- The listeners of the sessions, as a transition system. -/
def listenerLts : Lts (State C Update Metadata) (Label C Update Metadata) where
  init s := s = .init C Update Metadata
  step := Step

end Pyroflow
