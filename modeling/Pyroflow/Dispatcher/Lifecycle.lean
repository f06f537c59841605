import Mathlib.Data.List.Nodup
import Mathlib.Data.Nat.Notation
import Mathlib.Logic.Function.Basic
import Pyroflow.Lib.Lts
import Pyroflow.Lib.OrderedDict

/-!
# The components of the dispatcher

The `Dispatcher` has three registries, of listeners, coordinateds and histories, with one component
at most for a type of updates. `register` puts a component there, `unregister` removes and stops
it. `Dispatcher.start` starts the components that are registered once the dispatcher it extends has
started, and `Dispatcher.stop` stops those that are registered before that dispatcher stops. Both
gather: each component is started or stopped in a task of its own, and between any two steps of
these tasks components may be unregistered, or registered as long as `is_started` is not set.

Of `gather_helper`, which is not part of the program, it is assumed that it makes one task for each
awaitable it is given, in the order of the registries, that it returns when they have all ended,
whatever they raise (`return_exc=True`), and that a cancellation of it cancels them.

If the calls of `start` and `stop` take turns, as those of a client do, the components that run are
registered with a dispatcher that is started, and none is started while it runs
(`running_of_byTurns`). From the return of `start` to the next call of `stop`, they are all that are
registered (`running_iff_registered`). A component must not be unregistered before its task to
start it has begun, however: it is stopped first and started afterwards, by a dispatcher that has
forgotten it.
-/

namespace Pyroflow.Dispatcher

variable {C T : Type}

/-! ### The registries -/

/-- What a component is. -/
inductive ComponentKind
  | listener
  | coordinated
  | history
  deriving DecidableEq

namespace ComponentKind

/-- What `register` calls it. -/
def word : ComponentKind → String
  | listener => "listener"
  | coordinated => "coordinated"
  | history => "history"

/-- The name of its class. -/
def className : ComponentKind → String
  | listener => "UpdateListener"
  | coordinated => "UpdateCoordinated"
  | history => "UpdateHistory"

end ComponentKind

/-- The classes of the components: what a component is, its `__update_type__`, and how a type is
    written. -/
structure ComponentClasses (C T : Type) where
  kind : C → ComponentKind
  updateType : C → T
  repr : T → String

/-- Where a call of `start` or `stop` is. The tasks it has gathered are told by their components:
    those that have not begun, and those that have not returned. -/
inductive LifeCall (C : Type)
  /-- `r = await self.oldstart(*args, **kw)` -/
  | oldstart
  /-- `await gather_helper(...)`, in `start`. -/
  | starting (pending begun : List C)
  /-- `await gather_helper(...)`, in `stop`. -/
  | stopping (pending begun : List C)
  /-- `r = await self.oldstop(*args, **kw)` -/
  | oldstop
  deriving DecidableEq

/-- The dispatcher, the calls of `start` and `stop` under way, and the components that run: `start`
    has been called on them, and not `stop` since. -/
structure LifeState (C T : Type) where
  registry : ComponentKind → OrderedDict T C := fun _ => .empty
  isStarted : Bool := false
  calls : ℕ → Option (LifeCall C) := fun _ => none
  running : C → Bool := fun _ => false

/-- What `register` raises. -/
inductive RegisterError
  | runtimeError (message : String)
  | valueError (message : String)
  deriving DecidableEq, Repr

namespace LifeState

variable (K : ComponentClasses C T) (s : LifeState C T)

/-- A component is registered. -/
def Registered (c : C) : Prop := (K.updateType c, c) ∈ (s.registry (K.kind c)).items

/-- `self.listeners.values()`, `self.coordinateds.values()` and `self.histories.values()`. -/
def components : List C :=
  [ComponentKind.listener, .coordinated, .history].flatMap fun kind =>
    (s.registry kind).items.map Prod.snd

/-- A registry is replaced. -/
def setRegistry (kind : ComponentKind) (registry : OrderedDict T C) : LifeState C T :=
  { s with registry := Function.update s.registry kind registry }

/-- A call goes on, or returns. -/
def setCall (i : ℕ) (call : Option (LifeCall C)) : LifeState C T :=
  { s with calls := Function.update s.calls i call }

section Simp

variable {K : ComponentClasses C T} {s : LifeState C T} {i : ℕ} {call : Option (LifeCall C)}
  {kind kind' : ComponentKind} {registry : OrderedDict T C} {c : C}

@[simp] theorem registry_setCall : (s.setCall i call).registry = s.registry := rfl

@[simp] theorem isStarted_setCall : (s.setCall i call).isStarted = s.isStarted := rfl

@[simp] theorem running_setCall : (s.setCall i call).running = s.running := rfl

@[simp] theorem calls_setCall : (s.setCall i call).calls = Function.update s.calls i call := rfl

@[simp] theorem registered_setCall : (s.setCall i call).Registered K c ↔ s.Registered K c := .rfl

@[simp] theorem isStarted_setRegistry : (s.setRegistry kind registry).isStarted = s.isStarted :=
  rfl

@[simp] theorem running_setRegistry : (s.setRegistry kind registry).running = s.running := rfl

@[simp] theorem calls_setRegistry : (s.setRegistry kind registry).calls = s.calls := rfl

@[simp] theorem registry_setRegistry_self :
    (s.setRegistry kind registry).registry kind = registry := Function.update_self ..

theorem registry_setRegistry_of_ne (h : kind' ≠ kind) :
    (s.setRegistry kind registry).registry kind' = s.registry kind' := Function.update_of_ne h ..

end Simp

section Classified

/-- Every component is in the registry of its kind, under its type. -/
def Classified : Prop :=
  ∀ kind updateType c, (updateType, c) ∈ (s.registry kind).items →
    K.kind c = kind ∧ K.updateType c = updateType

variable {K s} {c : C}

theorem mem_components : c ∈ s.components ↔ ∃ kind t, (t, c) ∈ (s.registry kind).items := by
  constructor
  · intro hc
    obtain ⟨kind, -, hc⟩ := List.mem_flatMap.1 hc
    obtain ⟨⟨t, c⟩, hmem, rfl⟩ := List.mem_map.1 hc
    exact ⟨kind, t, hmem⟩
  · rintro ⟨kind, t, hmem⟩
    exact List.mem_flatMap.2 ⟨kind, by cases kind <;> simp, List.mem_map_of_mem hmem⟩

theorem Classified.mem_components (h : s.Classified K) : c ∈ s.components ↔ s.Registered K c := by
  rw [LifeState.mem_components]
  constructor
  · rintro ⟨kind, t, hmem⟩
    obtain ⟨rfl, rfl⟩ := h kind t c hmem
    exact hmem
  · exact fun hc => ⟨_, _, hc⟩

/-- A component is gathered once. -/
theorem Classified.nodup_components (h : s.Classified K) : s.components.Nodup := by
  refine List.nodup_flatMap.2 ⟨fun kind _ => ?_, ?_⟩
  · refine (List.Nodup.of_map Prod.fst (s.registry kind).nodup).map_on ?_
    rintro ⟨t, c⟩ hmem ⟨t', c'⟩ hmem' rfl
    rw [← (h kind t c hmem).2, ← (h kind t' c hmem').2]
  · have hdisjoint {kind kind' : ComponentKind} (hne : kind ≠ kind') :
        List.Disjoint ((s.registry kind).items.map Prod.snd)
          ((s.registry kind').items.map Prod.snd) := by
      intro c hc hc'
      obtain ⟨⟨t, c⟩, hmem, rfl⟩ := List.mem_map.1 hc
      obtain ⟨⟨t', c'⟩, hmem', heq⟩ := List.mem_map.1 hc'
      obtain rfl : c' = c := heq
      exact hne ((h _ _ _ hmem).1.symm.trans (h _ _ _ hmem').1)
    simp [hdisjoint, Function.onFun]

end Classified

variable [DecidableEq C]

/-- `start` or `stop` is called on a component. -/
def setRunning (c : C) (running : Bool) : LifeState C T :=
  { s with running := Function.update s.running c running }

section Simp

variable {K s} {c c' : C} {running : Bool}

@[simp] theorem registry_setRunning : (s.setRunning c running).registry = s.registry := rfl

@[simp] theorem isStarted_setRunning : (s.setRunning c running).isStarted = s.isStarted := rfl

@[simp] theorem calls_setRunning : (s.setRunning c running).calls = s.calls := rfl

@[simp] theorem registered_setRunning :
    (s.setRunning c' running).Registered K c ↔ s.Registered K c := .rfl

@[simp] theorem running_setRunning_self : (s.setRunning c running).running c = running :=
  Function.update_self ..

theorem running_setRunning_of_ne (h : c' ≠ c) :
    (s.setRunning c running).running c' = s.running c' := Function.update_of_ne h ..

end Simp

variable [DecidableEq T]

/-- `register_listener`, `register_coordinated` and `register_history`, for a component of this
    kind. -/
def register (kind : ComponentKind) (c : C) : Except RegisterError (LifeState C T) :=
  if s.isStarted then
    .error (.runtimeError s!"Cannot register {kind.word} while dispatcher is already running")
  else if ((s.registry kind).get? (K.updateType c)).isSome then
    .error (.valueError
      s!"{kind.className} for {K.repr (K.updateType c)} is already registered")
  else .ok (s.setRegistry kind ((s.registry kind).set (K.updateType c) c))

/-- `register_listener`. -/
def registerListener (c : C) : Except RegisterError (LifeState C T) := s.register K .listener c

/-- `register_coordinated`. -/
def registerCoordinated (c : C) : Except RegisterError (LifeState C T) :=
  s.register K .coordinated c

/-- `register_history`. -/
def registerHistory (c : C) : Except RegisterError (LifeState C T) := s.register K .history c

/-- `unregister_listener`, `unregister_coordinated` and `unregister_history`, up to the call of
    `stop` on the component. -/
def unregister (kind : ComponentKind) (updateType : T) : LifeState C T :=
  match (s.registry kind).get? updateType with
  | none => s
  | some c => (s.setRegistry kind ((s.registry kind).pop updateType)).setRunning c false

/-- `unregister_listener`. -/
def unregisterListener (updateType : T) : LifeState C T := s.unregister .listener updateType

/-- `unregister_coordinated`. -/
def unregisterCoordinated (updateType : T) : LifeState C T := s.unregister .coordinated updateType

/-- `unregister_history`. -/
def unregisterHistory (updateType : T) : LifeState C T := s.unregister .history updateType

end LifeState

/-! ### The steps -/

/-- What happens: a component is registered, or one is unregistered; `start` or `stop` is called,
    what it awaits of the dispatcher it extends returns or raises, a task it has gathered begins or
    returns, all of them have; or a call is cancelled. -/
inductive LifeLabel (C T : Type)
  | register (c : C)
  | unregister (kind : ComponentKind) (updateType : T)
  | start (i : ℕ)
  | oldstart (i : ℕ) (returned : Bool)
  | stop (i : ℕ)
  | oldstop (i : ℕ) (returned : Bool)
  | begin (i : ℕ) (c : C)
  | ended (i : ℕ) (c : C)
  | gathered (i : ℕ)
  | cancel (i : ℕ)

variable [DecidableEq C] [DecidableEq T]

namespace LifeState

variable (K : ComponentClasses C T)

/-- The steps. -/
inductive Step : LifeState C T → LifeLabel C T → LifeState C T → Prop
  | register {s s' c} : s.register K (K.kind c) c = .ok s' → Step s (.register c) s'
  | notRegistered {s c exc} : s.register K (K.kind c) c = .error exc → Step s (.register c) s
  | unregister {s} (kind : ComponentKind) (updateType : T) :
      Step s (.unregister kind updateType) (s.unregister kind updateType)
  | start {s i} : s.calls i = none → Step s (.start i) (s.setCall i (some .oldstart))
  | oldstart {s i} : s.calls i = some .oldstart →
      Step s (.oldstart i true)
        ({ s with isStarted := true }.setCall i (some (.starting s.components [])))
  | notStarted {s i} : s.calls i = some .oldstart → Step s (.oldstart i false) (s.setCall i none)
  | beginStart {s i pending begun c} : s.calls i = some (.starting pending begun) → c ∈ pending →
      Step s (.begin i c)
        ((s.setCall i (some (.starting (pending.erase c) (c :: begun)))).setRunning c true)
  | endStart {s i pending begun c} : s.calls i = some (.starting pending begun) → c ∈ begun →
      Step s (.ended i c) (s.setCall i (some (.starting pending (begun.erase c))))
  | started {s i} : s.calls i = some (.starting [] []) → Step s (.gathered i) (s.setCall i none)
  | stop {s i} : s.calls i = none →
      Step s (.stop i) (s.setCall i (some (.stopping s.components [])))
  | beginStop {s i pending begun c} : s.calls i = some (.stopping pending begun) → c ∈ pending →
      Step s (.begin i c)
        ((s.setCall i (some (.stopping (pending.erase c) (c :: begun)))).setRunning c false)
  | endStop {s i pending begun c} : s.calls i = some (.stopping pending begun) → c ∈ begun →
      Step s (.ended i c) (s.setCall i (some (.stopping pending (begun.erase c))))
  | stopped {s i} : s.calls i = some (.stopping [] []) →
      Step s (.gathered i) (s.setCall i (some .oldstop))
  | oldstop {s i} : s.calls i = some .oldstop →
      Step s (.oldstop i true) ({ s with isStarted := false }.setCall i none)
  | notStopped {s i} : s.calls i = some .oldstop → Step s (.oldstop i false) (s.setCall i none)
  | cancel {s i call} : s.calls i = some call → Step s (.cancel i) (s.setCall i none)

end LifeState

/-- A dispatcher with components of these classes. -/
def lifeLts (K : ComponentClasses C T) : Lts (LifeState C T) (LifeLabel C T) where
  init s := s = {}
  step := LifeState.Step K

/-- `start` is called on a dispatcher that is not started, and neither it nor `stop` while a call of
    either is under way. The component `c` is not unregistered while its task to start it has not
    begun. -/
def ByTurns (c : C) (s : LifeState C T) : LifeLabel C T → Prop
  | .start _ => s.isStarted = false ∧ ∀ i, s.calls i = none
  | .stop _ => ∀ i, s.calls i = none
  | .unregister kind updateType => (s.registry kind).get? updateType = some c →
      ∀ i pending begun, s.calls i = some (.starting pending begun) → c ∉ pending
  | _ => True

/-! ### What is registered -/

namespace LifeState

variable {K : ComponentClasses C T} {s s' : LifeState C T} {l : LifeLabel C T} {c c' : C}
  {kind : ComponentKind} {updateType : T}

omit [DecidableEq C] in
/-- A component is registered on a dispatcher that is not started, if there is none of its kind for
    its type. -/
theorem register_eq_ok_iff : s.register K kind c = .ok s' ↔
    s.isStarted = false ∧ (s.registry kind).get? (K.updateType c) = none ∧
      s' = s.setRegistry kind ((s.registry kind).set (K.updateType c) c) := by
  rw [register]
  split
  case isTrue h => simp [h]
  case isFalse h =>
    split
    case isTrue h' => simp [Option.ne_none_iff_isSome.2 h']
    case isFalse h' => simp [h, Option.not_isSome_iff_eq_none.1 h', eq_comm]

omit [DecidableEq C] in
theorem Classified.get?_eq_some_iff (h : s.Classified K) :
    (s.registry kind).get? updateType = some c ↔
      K.kind c = kind ∧ K.updateType c = updateType ∧ s.Registered K c := by
  rw [OrderedDict.get?_eq_some_iff]
  constructor
  · intro hmem
    obtain ⟨rfl, rfl⟩ := h kind updateType c hmem
    exact ⟨rfl, rfl, hmem⟩
  · rintro ⟨rfl, rfl, hc⟩
    exact hc

omit [DecidableEq C] in
theorem registered_register (h : s.register K (K.kind c') c' = .ok s') :
    s'.Registered K c ↔ c = c' ∨ s.Registered K c := by
  obtain ⟨-, hnone, rfl⟩ := register_eq_ok_iff.1 h
  rw [Registered]
  by_cases hkind : K.kind c = K.kind c'
  · have hnot : K.updateType c = K.updateType c' → ¬ s.Registered K c := by
      intro htype hc
      rw [Registered, hkind, htype, ← OrderedDict.get?_eq_some_iff, hnone] at hc
      cases hc
    rw [hkind, registry_setRegistry_self, OrderedDict.mem_items_set]
    constructor
    · rintro (⟨-, rfl⟩ | ⟨-, hc⟩)
      · exact .inl rfl
      · exact .inr (by rwa [Registered, hkind])
    · rintro (rfl | hc)
      · exact .inl ⟨rfl, rfl⟩
      · exact .inr ⟨fun htype => hnot htype hc, by rwa [Registered, hkind] at hc⟩
  · rw [registry_setRegistry_of_ne hkind]
    exact ⟨.inr, fun hc => hc.resolve_left fun heq => hkind (heq ▸ rfl)⟩

@[simp] theorem isStarted_unregister :
    (s.unregister kind updateType).isStarted = s.isStarted := by
  rw [unregister]
  split <;> rfl

@[simp] theorem calls_unregister : (s.unregister kind updateType).calls = s.calls := by
  rw [unregister]
  split <;> rfl

variable (kind updateType c) in
/-- The component that is unregistered is registered no more, and does not run. -/
theorem Classified.unregister (h : s.Classified K) :
    ((s.unregister kind updateType).Registered K c ↔
      s.Registered K c ∧ (s.registry kind).get? updateType ≠ some c) ∧
    ((s.unregister kind updateType).running c = true ↔
      s.running c = true ∧ (s.registry kind).get? updateType ≠ some c) := by
  rw [LifeState.unregister]
  split
  case h_1 hnone => simp [hnone]
  case h_2 c' hc' =>
    obtain ⟨rfl, rfl, hreg⟩ := h.get?_eq_some_iff.1 hc'
    rw [hc', ne_eq, Option.some_inj]
    constructor
    · rw [registered_setRunning, Registered, Registered]
      by_cases hkind : K.kind c = K.kind c'
      · rw [hkind, registry_setRegistry_self, OrderedDict.mem_items_pop, and_comm]
        refine and_congr_right fun hc => not_congr ⟨fun htype => ?_, fun heq => heq ▸ rfl⟩
        have hcc' := OrderedDict.get?_eq_some_iff.2 hc
        rw [htype, hc'] at hcc'
        exact Option.some.inj hcc'
      · rw [registry_setRegistry_of_ne hkind]
        exact ⟨fun hc => ⟨hc, fun heq => hkind (heq ▸ rfl)⟩, And.left⟩
    · by_cases heq : c = c'
      · simp [heq]
      · simp [running_setRunning_of_ne heq, Ne.symm heq]

theorem Classified.step (h : s.Classified K) (hst : Step K s l s') : s'.Classified K := by
  cases hst with
  | @register _ c' hok =>
    obtain ⟨-, -, rfl⟩ := register_eq_ok_iff.1 hok
    intro kind t c hmem
    by_cases hkind : kind = K.kind c'
    · subst hkind
      rw [registry_setRegistry_self, OrderedDict.mem_items_set] at hmem
      rcases hmem with ⟨rfl, rfl⟩ | ⟨-, hmem⟩
      · exact ⟨rfl, rfl⟩
      · exact h _ _ _ hmem
    · rw [registry_setRegistry_of_ne hkind] at hmem
      exact h _ _ _ hmem
  | unregister kind' t' =>
    intro kind t c hmem
    rw [LifeState.unregister] at hmem
    split at hmem
    case h_1 => exact h _ _ _ hmem
    case h_2 =>
      rw [registry_setRunning] at hmem
      by_cases hkind : kind = kind'
      · subst hkind
        rw [registry_setRegistry_self, OrderedDict.mem_items_pop] at hmem
        exact h _ _ _ hmem.2
      · rw [registry_setRegistry_of_ne hkind] at hmem
        exact h _ _ _ hmem
  | _ => exact h

theorem classified_of_reachable {P : LifeState C T → LifeLabel C T → Prop}
    (hr : (lifeLts K).ReachableUnder P s) : s.Classified K := by
  refine hr.invariant ?_ fun _ _ _ h _ hst => h.step hst
  rintro s rfl kind t c hmem
  cases hmem

/-! ### Calls that take turns -/

variable {i : ℕ} {call : Option (LifeCall C)}

variable (K s c) in
/-- Where a call is, as a component sees it. The tasks gathered by `start` are those of the
    registered components that do not run; only components with a task of `stop` that has not begun
    run still. -/
def AtCall : LifeCall C → Prop
  | .oldstart => s.isStarted = false
  | .starting pending _ => s.isStarted = true ∧ pending.Nodup ∧
      (c ∈ pending → s.Registered K c ∧ s.running c = false) ∧
      (s.Registered K c → s.running c = true ∨ c ∈ pending)
  | .stopping pending _ => s.running c = true → c ∈ pending
  | .oldstop => s.running c = false

variable (K s c) in
/-- One call is under way at most. A component that runs is registered, with a dispatcher that is
    started. -/
structure Orderly : Prop where
  turns : ∀ i j, s.calls i ≠ none → s.calls j ≠ none → j = i
  running : s.running c = true → s.Registered K c ∧ s.isStarted = true
  atCall : ∀ i call, s.calls i = some call → s.AtCall K c call

omit [DecidableEq C] [DecidableEq T] in
/-- A call goes on, and there is no other. -/
theorem Orderly.of_setCall (hturns : ∀ j, s.calls j ≠ none → j = i)
    (hcalls : s'.calls = Function.update s.calls i call)
    (hrunning : s'.running c = true → s'.Registered K c ∧ s'.isStarted = true)
    (hcall : ∀ call' ∈ call, s'.AtCall K c call') : s'.Orderly K c := by
  have hother : ∀ j, s'.calls j ≠ none → j = i := by
    intro j hj
    by_contra hne
    rw [hcalls, Function.update_of_ne hne] at hj
    exact hne (hturns j hj)
  refine ⟨fun j j' hj hj' => (hother j' hj').trans (hother j hj).symm, hrunning, ?_⟩
  intro j call' hj
  obtain rfl := hother j (hj ▸ Option.some_ne_none _)
  rw [hcalls, Function.update_self] at hj
  exact hcall call' hj

omit [DecidableEq C] [DecidableEq T] in
theorem Orderly.of_call (h : s.Orderly K c) {call'} (hi : s.calls i = some call') :
    ∀ j, s.calls j ≠ none → j = i :=
  fun j => h.turns i j (hi ▸ Option.some_ne_none _)

omit [DecidableEq C] [DecidableEq T] in
/-- A call begins, and there is no other. -/
theorem turns_of_forall (h : ∀ j, s.calls j = none) : ∀ j, s.calls j ≠ none → j = i :=
  fun j hj => absurd (h j) hj

omit [DecidableEq C] in
theorem Orderly.register (h : s.Orderly K c) (hok : s.register K (K.kind c') c' = .ok s') :
    s'.Orderly K c := by
  have hreg : s.Registered K c → s'.Registered K c :=
    fun hc => (registered_register hok).2 (.inr hc)
  obtain ⟨hnot, -, rfl⟩ := register_eq_ok_iff.1 hok
  refine ⟨h.turns, fun hc => ⟨hreg (h.running hc).1, (h.running hc).2⟩, fun i call hi => ?_⟩
  have hcall := h.atCall i call hi
  cases call with
  | starting pending begun =>
    -- The dispatcher is started.
    rw [AtCall, hnot] at hcall
    cases hcall.1
  | oldstart | stopping | oldstop => exact hcall

theorem Orderly.unregister (hs : s.Classified K) (h : s.Orderly K c)
    (hp : ByTurns c s (.unregister kind updateType)) :
    (s.unregister kind updateType).Orderly K c := by
  obtain ⟨hreg, hrun⟩ := hs.unregister c kind updateType
  have hstarted : (s.unregister kind updateType).isStarted = s.isStarted := isStarted_unregister
  refine ⟨calls_unregister (s := s) ▸ h.turns, ?_, fun i call hi => ?_⟩
  · rw [hrun, hreg, hstarted]
    exact fun ⟨hc, hne⟩ => ⟨⟨(h.running hc).1, hne⟩, (h.running hc).2⟩
  · rw [calls_unregister] at hi
    have hcall := h.atCall i call hi
    cases call with
    | oldstart => exact hstarted.trans hcall
    | starting pending begun =>
      obtain ⟨hs, hnodup, hpending, hall⟩ := hcall
      refine ⟨hstarted.trans hs, hnodup, fun hc => ?_, ?_⟩
      · have hne : (s.registry kind).get? updateType ≠ some c :=
          fun hget => hp hget i pending begun hi hc
        refine ⟨hreg.2 ⟨(hpending hc).1, hne⟩, ?_⟩
        rw [← Bool.not_eq_true, hrun, (hpending hc).2]
        exact fun hc => Bool.false_ne_true hc.1
      · rw [hreg, hrun]
        exact fun ⟨hc, hne⟩ => (hall hc).imp_left (⟨·, hne⟩)
    | stopping pending begun => exact fun hc => hcall (hrun.1 hc).1
    | oldstop =>
      rw [AtCall, ← Bool.not_eq_true, hrun, show s.running c = false from hcall]
      exact fun hc => Bool.false_ne_true hc.1

theorem Orderly.step (hs : s.Classified K) (h : s.Orderly K c) (hp : ByTurns c s l)
    (hst : Step K s l s') : s'.Orderly K c := by
  cases hst with
  | register hok => exact h.register hok
  | notRegistered => exact h
  | unregister => exact h.unregister hs hp
  | start hi =>
    exact .of_setCall (turns_of_forall hp.2) rfl h.running (by simpa [AtCall] using hp.1)
  | @oldstart i hi =>
    -- None of those gathered runs yet.
    have hnot : s.running c = false := by
      have hs : s.isStarted = false := h.atCall i _ hi
      rw [← Bool.not_eq_true]
      exact fun hc => Bool.false_ne_true (hs.symm.trans (h.running hc).2)
    refine .of_setCall (h.of_call hi) rfl (fun hc => ⟨(h.running hc).1, rfl⟩) ?_
    rintro _ ⟨⟩
    exact ⟨rfl, hs.nodup_components, fun hc => ⟨hs.mem_components.1 hc, hnot⟩,
      fun hc => .inr (hs.mem_components.2 hc)⟩
  | notStarted hi | started hi | notStopped hi | cancel hi =>
    exact .of_setCall (h.of_call hi) rfl h.running (by simp)
  | @beginStart i pending begun c' hi hc' =>
    obtain ⟨hs, hnodup, hpending, hall⟩ := h.atCall i _ hi
    by_cases heq : c = c'
    · subst heq
      refine .of_setCall (h.of_call hi) rfl (fun _ => ⟨(hpending hc').1, hs⟩) ?_
      rintro _ ⟨⟩
      exact ⟨hs, hnodup.erase c, fun hc => absurd hc hnodup.not_mem_erase,
        fun _ => .inl running_setRunning_self⟩
    · have hrun : ((s.setCall i (some (.starting (pending.erase c') (c' :: begun)))).setRunning c'
          true).running c = s.running c := running_setRunning_of_ne heq
      refine .of_setCall (h.of_call hi) rfl (fun hc => h.running (hrun ▸ hc)) ?_
      rintro _ ⟨⟩
      refine ⟨hs, hnodup.erase c', fun hc => ?_, fun hc => ?_⟩
      · rw [hrun]
        exact hpending (List.mem_of_mem_erase hc)
      · rw [hrun, List.mem_erase_of_ne heq]
        exact hall hc
  | endStart hi =>
    exact .of_setCall (h.of_call hi) rfl h.running (by simpa [AtCall] using h.atCall _ _ hi)
  | stop hi =>
    refine .of_setCall (turns_of_forall hp) rfl h.running ?_
    rintro _ ⟨⟩
    exact fun hc => hs.mem_components.2 (h.running hc).1
  | @beginStop i pending begun c' hi hc' =>
    by_cases heq : c = c'
    · subst heq
      refine .of_setCall (h.of_call hi) rfl (fun hc => ?_) ?_
      · simp at hc
      · rintro _ ⟨⟩
        simp [AtCall]
    · have hrun : ((s.setCall i (some (.stopping (pending.erase c') (c' :: begun)))).setRunning c'
          false).running c = s.running c := running_setRunning_of_ne heq
      refine .of_setCall (h.of_call hi) rfl (fun hc => h.running (hrun ▸ hc)) ?_
      rintro _ ⟨⟩
      rw [AtCall, hrun, List.mem_erase_of_ne heq]
      exact h.atCall i _ hi
  | endStop hi =>
    exact .of_setCall (h.of_call hi) rfl h.running (by simpa [AtCall] using h.atCall _ _ hi)
  | @stopped i hi =>
    refine .of_setCall (h.of_call hi) rfl h.running ?_
    rintro _ ⟨⟩
    rw [AtCall, ← Bool.not_eq_true]
    exact fun hc => List.not_mem_nil (h.atCall i _ hi hc)
  | @oldstop i hi =>
    have hnot : s.running c = false := h.atCall i _ hi
    exact .of_setCall (h.of_call hi) rfl (fun hc => absurd (hnot.symm.trans hc) Bool.false_ne_true)
      (by simp)

theorem orderly_of_reachable (hr : (lifeLts K).ReachableUnder (ByTurns c) s) : s.Orderly K c := by
  refine hr.invariant_of_reachable (I := fun s => s.Orderly K c) ?_ fun _ _ _ hr h hp hst =>
    h.step (classified_of_reachable hr) hp hst
  rintro s rfl
  exact ⟨fun _ _ hi => absurd rfl hi, nofun, nofun⟩

/-! ### From start to stop -/

variable (K s c) in
/-- The dispatcher is started, no call is under way, and a component runs if it is registered. -/
structure Complete : Prop where
  classified : s.Classified K
  isStarted : s.isStarted = true
  calls : ∀ i, s.calls i = none
  running : s.running c = true ↔ s.Registered K c

theorem Complete.step (h : s.Complete K c) (hp : ByTurns c s l) (hl : ∀ i, l ≠ .stop i)
    (hst : Step K s l s') : s'.Complete K c := by
  have hnone {i : ℕ} {call} (hi : s.calls i = some call) : s'.Complete K c := by
    rw [h.calls i] at hi
    cases hi
  cases hst with
  | register hok =>
    have hnot := (register_eq_ok_iff.1 hok).1
    rw [h.isStarted] at hnot
    cases hnot
  | notRegistered => exact h
  | unregister kind updateType =>
    have hclassified := h.classified.step (.unregister (K := K) kind updateType)
    obtain ⟨hreg, hrun⟩ := h.classified.unregister c kind updateType
    refine ⟨hclassified, ?_, ?_, ?_⟩
    · rw [isStarted_unregister, h.isStarted]
    · rw [calls_unregister]
      exact h.calls
    · rw [hreg, hrun, h.running]
  | start => exact absurd (hp.1.symm.trans h.isStarted) Bool.false_ne_true
  | stop => exact absurd rfl (hl _)
  | oldstart hi | notStarted hi | started hi | stopped hi | oldstop hi | notStopped hi =>
    exact hnone hi
  | beginStart hi | endStart hi | beginStop hi | endStop hi | cancel hi => exact hnone hi

end LifeState

variable {K : ComponentClasses C T} {s s' s'' : LifeState C T} {c : C} {i : ℕ}

/-- If the calls of `start` and `stop` take turns, a component that runs is registered with a
    dispatcher that is started, and none is started while it runs. -/
theorem running_of_byTurns (hr : (lifeLts K).ReachableUnder (ByTurns c) s) :
    (s.running c = true → s.Registered K c ∧ s.isStarted = true) ∧
      ∀ i pending begun, s.calls i = some (.starting pending begun) → c ∈ pending →
        s.running c = false := by
  have h := LifeState.orderly_of_reachable hr
  refine ⟨h.running, fun i pending begun hi hc => ?_⟩
  obtain ⟨-, -, hpending, -⟩ := h.atCall i _ hi
  exact (hpending hc).2

theorem running_of_byTurns_listener :
    let K : ComponentClasses Unit Unit := ⟨fun _ => .listener, fun _ => (), fun _ => "Message"⟩
    ∃ s : LifeState Unit Unit, s.running () = true ∧ s.Registered K () ∧ s.isStarted = true := by
  intro K
  have hr : (lifeLts K).ReachableUnder (ByTurns ()) _ := .tail (l := LifeLabel.begin 0 ())
    (.tail (l := LifeLabel.oldstart 0 true) (.tail (l := LifeLabel.start 0)
      (.tail (l := LifeLabel.register ()) (.init rfl) trivial (.register rfl))
      ⟨rfl, fun _ => rfl⟩ (.start rfl)) trivial (.oldstart rfl)) trivial
    (.beginStart rfl (List.mem_singleton_self ()))
  exact ⟨_, rfl, (running_of_byTurns hr).1 rfl⟩

-- A component that is unregistered before its task has begun is started afterwards.
example :
    let K : ComponentClasses Unit Unit := ⟨fun _ => .listener, fun _ => (), fun _ => "Message"⟩
    ∃ s, (lifeLts K).Reachable s ∧ s.running () = true ∧ ¬ s.Registered K () := by
  intro K
  have hr : (lifeLts K).Reachable _ := .tail (l := LifeLabel.begin 0 ())
    (.tail (l := LifeLabel.unregister .listener ()) (.tail (l := LifeLabel.oldstart 0 true)
      (.tail (l := LifeLabel.start 0)
        (.tail (l := LifeLabel.register ()) (.init rfl) trivial (.register rfl))
        trivial (.start rfl)) trivial (.oldstart rfl)) trivial (.unregister .listener ()))
    trivial (.beginStart rfl (List.mem_singleton_self ()))
  exact ⟨_, hr, rfl, List.not_mem_nil⟩

/-- From the return of `start` to the next call of `stop`, a component runs if and only if it is
    registered, if calls of `start` and `stop` take turns and it is not unregistered before its
    task to start it has begun. -/
theorem running_iff_registered (hr : (lifeLts K).ReachableUnder (ByTurns c) s)
    (hi : s.calls i = some (.starting [] [])) (hst : (lifeLts K).step s (.gathered i) s')
    (hrun : (lifeLts K).RunUnder (fun s l => ByTurns c s l ∧ ∀ j, l ≠ .stop j) s' s'') :
    s''.running c = true ↔ s''.Registered K c := by
  have hclassified := LifeState.classified_of_reachable hr
  have h := LifeState.orderly_of_reachable hr
  obtain ⟨hstarted, -, -, hall⟩ := h.atCall i _ hi
  have hcomplete : s'.Complete K c := by
    cases hst with
    | started =>
      refine ⟨hclassified, hstarted, fun j => ?_, ?_⟩
      · by_cases hj : j = i
        · rw [hj, LifeState.calls_setCall, Function.update_self]
        · rw [LifeState.calls_setCall, Function.update_of_ne hj]
          by_contra hne
          exact hj (h.of_call hi j hne)
      · exact ⟨fun hc => (h.running hc).1, fun hc => (hall hc).resolve_right List.not_mem_nil⟩
    | stopped hi' =>
      rw [hi] at hi'
      cases hi'
  have hrun := hrun.invariant (I := fun s => s.Complete K c) hcomplete fun _ _ _ h hp hst =>
    h.step hp.1 hp.2 hst
  exact hrun.running

theorem running_iff_registered_listener :
    let K : ComponentClasses Unit Unit := ⟨fun _ => .listener, fun _ => (), fun _ => "Message"⟩
    ∃ s : LifeState Unit Unit, (lifeLts K).ReachableUnder (ByTurns ()) s ∧ s.calls 0 = none ∧
      s.Registered K () ∧ s.running () = true := by
  intro K
  have hr : (lifeLts K).ReachableUnder (ByTurns ()) _ := .tail (l := LifeLabel.ended 0 ())
    (.tail (l := LifeLabel.begin 0 ()) (.tail (l := LifeLabel.oldstart 0 true)
      (.tail (l := LifeLabel.start 0)
        (.tail (l := LifeLabel.register ()) (.init rfl) trivial (.register rfl))
        ⟨rfl, fun _ => rfl⟩ (.start rfl)) trivial (.oldstart rfl)) trivial
      (.beginStart rfl (List.mem_singleton_self ()))) trivial
    (.endStart rfl (List.mem_singleton_self ()))
  have h := running_iff_registered hr rfl (LifeState.Step.started (i := 0) rfl) .refl
  refine ⟨_, hr.tail (l := LifeLabel.gathered 0) trivial (.started rfl), rfl, ?_, h.2 ?_⟩ <;>
    exact List.mem_singleton_self ((), ())

end Pyroflow.Dispatcher
