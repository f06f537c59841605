import Mathlib.Data.Set.Finite.Basic
import Pyroflow.Coordinator.Memory
import Pyroflow.Coordinator.Redis

/-!
# The two backends, call by call

A session calls `register`, `registered`, `unregister` and `cancel`, naming the ids
it passes by the registrations they were issued for (`ClientCall`). What it is told
is that of an abstract registry, where a key holds the number of its registration
(`Registrations`): a coordinator that keeps its contract simulates it (`Simulates`),
whatever its tokens are, and answers as it does (`runs_answers`).

One answer is not in the contract, and the backends differ in it: that of `cancel`,
and of `unregister` without an id, on a key that is not registered. So they are
interchangeable as long as no such call is made (`answers_eq_iff`).
-/

namespace Pyroflow

/-- The calls of a session. An id is named by the number of the registration that it was
    issued for. -/
inductive ClientCall
  | register (key : ListenerKey)
  | registered (key : ListenerKey) (id : Option ℕ)
  | unregister (key : ListenerKey) (id : Option ℕ)
  | cancel (key : ListenerKey)

/-- What a call is told, an id apart. -/
inductive Answer
  /-- `register` returns an id. -/
  | issued
  /-- `register` raises `KeyError`. -/
  | keyError
  | bool (b : Bool)
  deriving DecidableEq

/-! ### The abstract registry -/

/-- The registrations so far, in the terms of the session. -/
structure Registrations where
  /-- The number of the registration that a key holds. -/
  current : ListenerKey → Option ℕ
  /-- How many there were. -/
  count : ℕ

namespace Registrations

/-- No registrations. -/
def none : Registrations := ⟨fun _ => .none, 0⟩

variable (s : Registrations)

/-- A key is registered. -/
def add (key : ListenerKey) : Registrations :=
  ⟨Function.update s.current key (some s.count), s.count + 1⟩

/-- The registration of a key is removed. -/
def remove (key : ListenerKey) : Registrations :=
  { s with current := Function.update s.current key .none }

/-- What a call does. -/
def next : ClientCall → Registrations
  | .register key =>
    if s.current key = .none then s.add key else s
  | .registered _ _ => s
  | .unregister key (some id) => if s.current key = some id then s.remove key else s
  | .unregister key .none | .cancel key => s.remove key

/-- What a call is told, given what one is told that is to remove a registration that is not
    there. -/
def answer (absent : Bool) : ClientCall → Answer
  | .register key => if s.current key = .none then .issued else .keyError
  | .registered key .none => .bool (s.current key).isSome
  | .registered key (some id) => .bool (s.current key = some id)
  | .unregister key (some id) => .bool (s.current key = .none ∨ s.current key = some id)
  | .unregister key .none | .cancel key => .bool ((s.current key).isSome || absent)

/-- What some calls are told. -/
def answers (absent : Bool) : Registrations → List ClientCall → List Answer
  | _, [] => []
  | s, c :: cs => s.answer absent c :: answers absent (s.next c) cs

/-- The call passes an id that was issued, if any. -/
def Names : ClientCall → Prop
  | .registered _ (some id) | .unregister _ (some id) => id < s.count
  | _ => True

/-- The calls pass ids issued before them. -/
def WellNamed : Registrations → List ClientCall → Prop
  | _, [] => True
  | s, c :: cs => s.Names c ∧ WellNamed (s.next c) cs

/-- The call is not to remove a registration that is not there, whatever its id. -/
def Removes : ClientCall → Prop
  | .unregister key .none | .cancel key => s.current key ≠ .none
  | _ => True

/-- `cancel`, and `unregister` without an id, are called on keys that are registered. -/
def OnRegistered : Registrations → List ClientCall → Prop
  | _, [] => True
  | s, c :: cs => s.Removes c ∧ OnRegistered (s.next c) cs

variable {s} {cs : List ClientCall}

@[simp] theorem current_add {key : ListenerKey} :
    (s.add key).current = Function.update s.current key (some s.count) := rfl

@[simp] theorem current_remove {key : ListenerKey} :
    (s.remove key).current = Function.update s.current key .none := rfl

theorem answer_eq_iff (c : ClientCall) : s.answer true c = s.answer false c ↔ s.Removes c := by
  have habsent (key : ListenerKey) : Answer.bool ((s.current key).isSome || true) =
      .bool ((s.current key).isSome || false) ↔ s.current key ≠ .none := by
    cases s.current key <;> simp
  cases c with
  | register key => exact iff_of_true rfl trivial
  | registered key id => cases id <;> exact iff_of_true rfl trivial
  | unregister key id =>
    cases id with
    | none => exact habsent key
    | some id => exact iff_of_true rfl trivial
  | cancel key => exact habsent key

/-- What is told of a registration that is not there matters if some call is to remove
    one. -/
theorem answers_eq_answers_iff : s.answers true cs = s.answers false cs ↔ s.OnRegistered cs := by
  induction cs generalizing s with
  | nil => exact iff_of_true rfl trivial
  | cons c cs ih =>
    rw [answers, answers, List.cons_eq_cons, OnRegistered]
    exact and_congr (answer_eq_iff c) ih

end Registrations

/-! ### The calls on a coordinator -/

namespace ListenerCoordinator

variable {Sess : Type} {C : ListenerCoordinator Sess} {σ : Sess}

/-- An id that is passed, given the ids issued so far. -/
def Passes (ids : List C.Token) (id : Option ℕ) (coordinatorId : Option C.Token) : Prop :=
  id.map (ids[·]?) = coordinatorId.map some

theorem passes_none {ids : List C.Token} {coordinatorId : Option C.Token} :
    Passes ids none coordinatorId ↔ coordinatorId = none := by
  rw [Passes, Option.map_none, eq_comm, Option.map_eq_none_iff]

theorem passes_some {ids : List C.Token} {n : ℕ} {coordinatorId : Option C.Token} :
    Passes ids (some n) coordinatorId ↔ ∃ t, coordinatorId = some t ∧ ids[n]? = some t := by
  rw [Passes, Option.map_some, eq_comm, Option.map_eq_some_iff]
  simp only [eq_comm]

variable (C σ) in
/-- Some calls of a session, from a state of the backend and with the ids issued so far. -/
inductive Runs : C.State → List C.Token → List ClientCall → List Answer → Prop
  | nil {b ids} : Runs b ids [] []
  | register {b ids key t b' cs as} (issued : C.Registers b σ key t b')
      (rest : Runs b' (ids ++ [t]) cs as) : Runs b ids (.register key :: cs) (.issued :: as)
  | registerFails {b ids key cs as} (fails : C.RegisterFails b σ key) (rest : Runs b ids cs as) :
      Runs b ids (.register key :: cs) (.keyError :: as)
  | registered {b ids key id coordinatorId cs as} (passes : Passes ids id coordinatorId)
      (rest : Runs b ids cs as) :
      Runs b ids (.registered key id :: cs) (.bool (C.registered b σ key coordinatorId) :: as)
  | unregister {b ids key id coordinatorId cs as} (passes : Passes ids id coordinatorId)
      (rest : Runs (C.unregister b σ key coordinatorId).2 ids cs as) :
      Runs b ids (.unregister key id :: cs) (.bool (C.unregister b σ key coordinatorId).1 :: as)
  | cancel {b ids key cs as} (rest : Runs (C.cancel b σ key).2 ids cs as) :
      Runs b ids (.cancel key :: cs) (.bool (C.cancel b σ key).1 :: as)

/-- What is known of the answers of a coordinator beyond its contract; `absent` is the one
    given where there is no registration to remove. -/
structure Answers (C : ListenerCoordinator Sess) (σ : Sess) (absent : Bool) : Prop where
  unregister_some : ∀ b key t, (C.unregister b σ key (some t)).1 = true ↔
    C.current b key = none ∨ C.current b key = some t
  unregister_none : ∀ b key, (C.unregister b σ key none).1 = ((C.current b key).isSome || absent)
  unregister_none_view : ∀ b key, C.view (C.unregister b σ key none).2 = (C.view b).revoke key
  cancel : ∀ b key, (C.cancel b σ key).1 = ((C.current b key).isSome || absent)
  /-- `register` always returns or raises, as only so many ids were issued. -/
  register : ∀ b key, (C.view b).issued.Finite →
    if C.current b key = none then ∃ t b', C.Registers b σ key t b' else C.RegisterFails b σ key

/-- The backend holds the registrations that the session knows of, under the ids issued
    for them. -/
structure Simulates (C : ListenerCoordinator Sess) (b : C.State) (ids : List C.Token)
    (s : Registrations) : Prop where
  length : ids.length = s.count
  nodup : ids.Nodup
  issued : ∀ t ∈ ids, t ∈ (C.view b).issued
  finite : (C.view b).issued.Finite
  lt : ∀ {key n}, s.current key = some n → n < s.count
  current : ∀ key, C.current b key = (s.current key).bind (ids[·]?)

section Simulates

variable {b b' : C.State} {ids : List C.Token} {s : Registrations} {key : ListenerKey} {n : ℕ}
  {t : C.Token}

theorem Simulates.init : Simulates C C.init [] .none where
  length := rfl
  nodup := List.nodup_nil
  issued := nofun
  finite := by
    rw [C.view_init]
    exact Set.finite_empty
  lt := nofun
  current key := by
    rw [ListenerCoordinator.current, C.view_init]
    rfl

/-- A key is registered if it is for the session. -/
theorem Simulates.current_eq_none (h : Simulates C b ids s) :
    C.current b key = none ↔ s.current key = none := by
  rw [h.current]
  cases hk : s.current key with
  | none => exact iff_of_true rfl rfl
  | some n =>
    rw [Option.bind_some, List.getElem?_eq_getElem (h.length ▸ h.lt hk)]
    exact iff_of_false nofun nofun

/-- A key holds the id of the registration it holds for the session. -/
theorem Simulates.current_eq_some (h : Simulates C b ids s) (ht : ids[n]? = some t) :
    C.current b key = some t ↔ s.current key = some n := by
  rw [h.current]
  cases hk : s.current key with
  | none => exact iff_of_false nofun nofun
  | some n' =>
    have hn' : n' < ids.length := h.length ▸ h.lt hk
    rw [Option.bind_some, Option.some.injEq, ← ht, List.getElem?_inj hn' h.nodup]

theorem Simulates.isSome_current (h : Simulates C b ids s) :
    (C.current b key).isSome = (s.current key).isSome := by
  rw [← Option.not_isNone, ← Option.not_isNone, Bool.not_eq_eq_eq_not, Bool.not_not, Bool.eq_iff_iff]
  simp only [Option.isNone_iff_eq_none]
  exact h.current_eq_none

/-- A registration is removed on both sides. -/
theorem Simulates.remove (h : Simulates C b ids s) (hv : C.view b' = (C.view b).revoke key) :
    Simulates C b' ids (s.remove key) where
  length := h.length
  nodup := h.nodup
  issued t ht := by
    rw [hv]
    exact h.issued t ht
  finite := by
    rw [hv]
    exact h.finite
  lt {key' n} hk := by
    by_cases hkey : key' = key
    · simp [hkey] at hk
    · rw [Registrations.current_remove, Function.update_of_ne hkey] at hk
      exact h.lt hk
  current key' := by
    rw [ListenerCoordinator.current, hv, Registrations.current_remove]
    by_cases hkey : key' = key
    · subst hkey
      rw [TokenRegistry.revoke_self, Function.update_self, Option.bind_none]
    · rw [TokenRegistry.revoke_of_ne hkey, Function.update_of_ne hkey]
      exact h.current key'

/-- A registration is issued on both sides. -/
theorem Simulates.register (h : Simulates C b ids s) (hr : C.Registers b σ key t b') :
    Simulates C b' (ids ++ [t]) (s.add key) := by
  obtain ⟨hfresh, hv⟩ := C.register_view hr
  have hissued : (C.view b').issued = insert t (C.view b).issued := by
    rw [hv]
    rfl
  refine ⟨?_, ?_, ?_, ?_, ?_, ?_⟩
  · rw [List.length_append, h.length]
    rfl
  · refine List.nodup_append.2 ⟨h.nodup, List.nodup_singleton t, ?_⟩
    rintro t' ht' _ ht rfl
    exact hfresh (List.mem_singleton.1 ht ▸ h.issued t' ht')
  · intro t' ht'
    rw [hissued]
    rcases List.mem_append.1 ht' with ht' | ht'
    · exact Set.mem_insert_of_mem _ (h.issued t' ht')
    · exact Set.mem_insert_iff.2 (.inl (List.mem_singleton.1 ht'))
  · rw [hissued]
    exact h.finite.insert t
  · intro key' n hk
    rw [Registrations.current_add] at hk
    by_cases hkey : key' = key
    · rw [hkey, Function.update_self, Option.some.injEq] at hk
      exact hk ▸ Nat.lt_succ_self _
    · rw [Function.update_of_ne hkey] at hk
      exact Nat.lt_succ_of_lt (h.lt hk)
  · intro key'
    -- The key holds the last id; the ids of the others stand where they did.
    rw [current_register hr, Registrations.current_add]
    by_cases hkey : key' = key
    · subst hkey
      rw [Function.update_self, Function.update_self, Option.bind_some, ← h.length,
        List.getElem?_concat_length]
    · rw [Function.update_of_ne hkey, Function.update_of_ne hkey, h.current]
      cases hk : s.current key' with
      | none => rfl
      | some n =>
        rw [Option.bind_some, Option.bind_some, List.getElem?_append_left (h.length ▸ h.lt hk)]

/-- A registration is withdrawn on both sides, if it is the one named. -/
theorem Simulates.withdraw (h : Simulates C b ids s) (ht : ids[n]? = some t) :
    Simulates C (C.unregister b σ key (some t)).2 ids (s.next (.unregister key (some n))) := by
  have hv := C.unregister_view b σ key t
  rw [TokenRegistry.withdraw] at hv
  change _ = if C.current b key = some t then _ else _ at hv
  rw [Registrations.next]
  -- The ids are distinct, so the token is there if and only if the number is.
  by_cases hk : s.current key = some n
  · rw [if_pos ((h.current_eq_some ht).2 hk)] at hv
    rw [if_pos hk]
    exact h.remove hv
  · rw [if_neg fun hc => hk ((h.current_eq_some ht).1 hc)] at hv
    rw [if_neg hk]
    exact ⟨h.length, h.nodup, hv ▸ h.issued, hv ▸ h.finite, h.lt,
      fun key => (congrArg (·.current key) hv).trans (h.current key)⟩

end Simulates

/-! ### The answers -/

section Answers

variable {absent : Bool} {b : C.State} {ids : List C.Token} {s : Registrations}
  {cs : List ClientCall} {as : List Answer}

/-- A coordinator answers as the abstract registry does. -/
theorem runs_answers (hC : C.Answers σ absent) (hr : Runs C σ b ids cs as)
    (h : C.Simulates b ids s) : as = s.answers absent cs := by
  -- By induction on the run, with the simulation carried from call to call.
  induction hr generalizing s with
  | nil => rfl
  | register issued rest ih =>
    have hfree := h.current_eq_none.1 (C.register_free issued)
    rw [Registrations.answers, Registrations.answer, Registrations.next, if_pos hfree, if_pos hfree,
      ih (h.register issued)]
  | registerFails fails rest ih =>
    have htaken := mt h.current_eq_none.2 (C.register_taken fails)
    rw [Registrations.answers, Registrations.answer, Registrations.next, if_neg htaken,
      if_neg htaken, ih h]
  | @registered _ _ key id _ _ _ passes rest ih =>
    rw [Registrations.answers, ih h]
    congr 1
    cases id with
    | none =>
      obtain rfl := passes_none.1 passes
      rw [registered_none_eq, h.isSome_current]
      rfl
    | some n =>
      obtain ⟨t, rfl, ht⟩ := passes_some.1 passes
      rw [Registrations.answer, Answer.bool.injEq, Bool.eq_iff_iff, registered_some_iff,
        h.current_eq_some ht, decide_eq_true_iff]
  | @unregister _ _ key id _ _ _ passes rest ih =>
    cases id with
    | none =>
      obtain rfl := passes_none.1 passes
      rw [Registrations.answers, hC.unregister_none, h.isSome_current,
        ih (h.remove (hC.unregister_none_view _ _))]
      rfl
    | some n =>
      obtain ⟨t, rfl, ht⟩ := passes_some.1 passes
      rw [Registrations.answers, ih (h.withdraw ht)]
      congr 1
      rw [Registrations.answer, Answer.bool.injEq, Bool.eq_iff_iff, hC.unregister_some,
        h.current_eq_none, h.current_eq_some ht, decide_eq_true_iff]
  | cancel rest ih =>
    rw [Registrations.answers, hC.cancel, h.isSome_current, ih (h.remove (C.cancel_view _ _ _))]
    rfl

/-- A coordinator answers calls that pass ids issued before them. -/
theorem exists_runs (hC : C.Answers σ absent) (h : C.Simulates b ids s) (hcs : s.WellNamed cs) :
    ∃ as, Runs C σ b ids cs as := by
  induction cs generalizing b ids s with
  | nil => exact ⟨_, .nil⟩
  | cons c cs ih =>
    obtain ⟨hn, hcs⟩ := hcs
    -- A number that was issued stands for an id.
    have hid {n : ℕ} (hn : n < s.count) : ∃ t, ids[n]? = some t :=
      ⟨_, List.getElem?_eq_getElem (h.length.symm ▸ hn)⟩
    cases c with
    | register key =>
      have hreg := hC.register b key h.finite
      rw [Registrations.next] at hcs
      by_cases hfree : s.current key = none
      · rw [if_pos (h.current_eq_none.2 hfree)] at hreg
        rw [if_pos hfree] at hcs
        obtain ⟨t, b', hr⟩ := hreg
        obtain ⟨as, has⟩ := ih (h.register hr) hcs
        exact ⟨_, .register hr has⟩
      · rw [if_neg (mt h.current_eq_none.1 hfree)] at hreg
        rw [if_neg hfree] at hcs
        obtain ⟨as, has⟩ := ih h hcs
        exact ⟨_, .registerFails hreg has⟩
    | registered key id =>
      obtain ⟨as, has⟩ := ih h hcs
      cases id with
      | none => exact ⟨_, .registered (passes_none.2 rfl) has⟩
      | some n =>
        obtain ⟨t, ht⟩ := hid hn
        exact ⟨_, .registered (passes_some.2 ⟨t, rfl, ht⟩) has⟩
    | unregister key id =>
      cases id with
      | none =>
        obtain ⟨as, has⟩ := ih (h.remove (hC.unregister_none_view b key)) hcs
        exact ⟨_, .unregister (passes_none.2 rfl) has⟩
      | some n =>
        obtain ⟨t, ht⟩ := hid hn
        obtain ⟨as, has⟩ := ih (h.withdraw ht) hcs
        exact ⟨_, .unregister (passes_some.2 ⟨t, rfl, ht⟩) has⟩
    | cancel key =>
      obtain ⟨as, has⟩ := ih (h.remove (C.cancel_view b σ key)) hcs
      exact ⟨_, .cancel has⟩

end Answers

end ListenerCoordinator

/-! ### The backends -/

namespace MemoryListenerCoordinator

variable {m : MemoryListenerCoordinator} {key : ListenerKey} {n : ℕ}

theorem unregister_some_iff :
    (m.unregister key (some n)).1 = true ↔ m.data key = none ∨ m.data key = some n := by
  rw [unregister]
  cases m.data key with
  | none => simp
  | some rId => by_cases hn : n = rId <;> simp [hn, eq_comm]

theorem unregister_none : (m.unregister key none).1 = true := by
  rw [unregister]
  cases m.data key with
  | none => rfl
  | some rId => simp

/-- `register` returns if the key is free, else raises. -/
theorem register_cases : if m.data key = none then ∃ n m', m.register key = some (n, m')
    else m.register key = none := by
  split
  · next h => exact ⟨_, register_of_free h⟩
  · next h =>
    cases hr : m.register key with
    | none => rfl
    | some issued => exact absurd (register_eq_some hr).1 h

end MemoryListenerCoordinator

/-- The in-memory coordinator answers `True` where there is no registration to remove. -/
theorem answers_memoryCoordinator : memoryCoordinator.Answers () true where
  unregister_some _ _ _ := MemoryListenerCoordinator.unregister_some_iff
  unregister_none _ _ := MemoryListenerCoordinator.unregister_none.trans (Bool.or_true _).symm
  unregister_none_view _ _ := MemoryListenerCoordinator.view_cancel
  cancel _ _ := MemoryListenerCoordinator.unregister_none.trans (Bool.or_true _).symm
  register _ _ _ := MemoryListenerCoordinator.register_cases

namespace RedisListenerCoordinator

variable {Sess Token : Type} [DecidableEq Sess] {r : RedisListenerCoordinator Sess Token} {σ : Sess}
  {key : ListenerKey}

theorem cancel_eq_isSome : (r.cancel σ key).1 = (r.redis key).isSome := by
  rw [cancel]
  split <;> simp [*]

/-- `register` returns if the key is free, else raises, as there are uuids left. -/
theorem register_cases [Infinite Token] (hfin : r.drawn.Finite) :
    if r.redis key = none then ∃ uuid r', ∃ h, r.register σ key uuid h = some r'
    else ∃ uuid h, r.register σ key uuid h = none := by
  obtain ⟨uuid, fresh⟩ := hfin.exists_notMem
  split
  · next h =>
    cases hr : r.register σ key uuid fresh with
    | none => exact absurd h (register_eq_none hr)
    | some r' => exact ⟨uuid, r', fresh, hr⟩
  · next h =>
    cases hr : r.register σ key uuid fresh with
    | none => exact ⟨uuid, fresh, hr⟩
    | some r' => exact absurd (register_eq_some hr).1 h

end RedisListenerCoordinator

/-- The Redis coordinator answers `False` there. -/
theorem answers_redisCoordinator (Sess Token : Type) [DecidableEq Sess] [DecidableEq Token]
    [Infinite Token] (σ : Sess) : (redisCoordinator Sess Token).Answers σ false where
  unregister_some _ _ _ := decide_eq_true_iff
  unregister_none _ _ := (Bool.or_false _).symm
  unregister_none_view _ _ := rfl
  cancel _ _ := RedisListenerCoordinator.cancel_eq_isSome.trans (Bool.or_false _).symm
  register _ _ hfin := RedisListenerCoordinator.register_cases hfin

/-- The backends are interchangeable. On any calls of a session that pass ids issued before
    them, from an empty registry, both give answers, and the same ones if and only if
    `cancel`, and `unregister` without an id, are called on keys that are registered. -/
theorem answers_eq_iff (Sess Token : Type) [DecidableEq Sess] [DecidableEq Token]
    [Infinite Token] (σ : Sess) {cs : List ClientCall} (h : Registrations.none.WellNamed cs) :
    (∃ as, memoryCoordinator.Runs () memoryCoordinator.init [] cs as) ∧
    (∃ as, (redisCoordinator Sess Token).Runs σ (redisCoordinator Sess Token).init [] cs as) ∧
    ((∀ as as', memoryCoordinator.Runs () memoryCoordinator.init [] cs as →
      (redisCoordinator Sess Token).Runs σ (redisCoordinator Sess Token).init [] cs as' →
        as = as') ↔ Registrations.none.OnRegistered cs) := by
  have hm := answers_memoryCoordinator
  have hr := answers_redisCoordinator Sess Token σ
  obtain ⟨as, has⟩ := ListenerCoordinator.exists_runs hm .init h
  obtain ⟨as', has'⟩ := ListenerCoordinator.exists_runs hr .init h
  refine ⟨⟨as, has⟩, ⟨as', has'⟩, ?_⟩
  -- Each backend has one list of answers, that of the abstract registry with its own `absent`.
  rw [← Registrations.answers_eq_answers_iff]
  constructor
  · intro heq
    rw [← ListenerCoordinator.runs_answers hm has .init, heq as as' has has',
      ListenerCoordinator.runs_answers hr has' .init]
  · intro heq as as' has has'
    rw [ListenerCoordinator.runs_answers hm has .init,
      ListenerCoordinator.runs_answers hr has' .init, heq]

/-- A key is registered, found taken, cancelled, and registered again; the first id is passed
    once more. -/
theorem answers_eq_iff_passed : ∃ as,
    memoryCoordinator.Runs () memoryCoordinator.init []
      [.register ⟨1, none, none⟩, .register ⟨1, none, none⟩, .cancel ⟨1, none, none⟩,
        .register ⟨1, none, none⟩, .unregister ⟨1, none, none⟩ (some 0)] as ∧
    (redisCoordinator ℕ ℕ).Runs 0 (redisCoordinator ℕ ℕ).init []
      [.register ⟨1, none, none⟩, .register ⟨1, none, none⟩, .cancel ⟨1, none, none⟩,
        .register ⟨1, none, none⟩, .unregister ⟨1, none, none⟩ (some 0)] as := by
  have hnamed : Registrations.none.WellNamed
      [.register ⟨1, none, none⟩, .register ⟨1, none, none⟩, .cancel ⟨1, none, none⟩,
        .register ⟨1, none, none⟩, .unregister ⟨1, none, none⟩ (some 0)] :=
    ⟨trivial, trivial, trivial, trivial, Nat.zero_lt_two, trivial⟩
  obtain ⟨⟨as, has⟩, ⟨as', has'⟩, heq⟩ := answers_eq_iff ℕ ℕ 0 hnamed
  obtain rfl := heq.2 ⟨trivial, trivial, nofun, trivial, trivial, trivial⟩ as as' has has'
  exact ⟨as, has, has'⟩

/-- A key that is not registered is cancelled: the in-memory coordinator answers `True`, the
    Redis one `False`. -/
theorem answers_ne_of_cancel :
    ¬ ∀ as as', memoryCoordinator.Runs () memoryCoordinator.init [] [.cancel ⟨1, none, none⟩] as →
      (redisCoordinator ℕ ℕ).Runs 0 (redisCoordinator ℕ ℕ).init [] [.cancel ⟨1, none, none⟩] as' →
        as = as' := by
  intro h
  have hm : memoryCoordinator.Runs () memoryCoordinator.init []
      [.cancel ⟨1, none, none⟩] [.bool true] := .cancel .nil
  have hr : (redisCoordinator ℕ ℕ).Runs 0 (redisCoordinator ℕ ℕ).init []
      [.cancel ⟨1, none, none⟩] [.bool false] := .cancel .nil
  exact absurd (h _ _ hm hr) (by decide)

end Pyroflow
