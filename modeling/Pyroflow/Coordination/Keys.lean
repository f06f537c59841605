import Pyroflow.Lib.PyStr
import Pyroflow.Lib.TtlCache

/-!
# Coordination keys

`UpdateCoordinator.build_key`, the name under which the lock of a key or its mark stands in
the backend, and the registry of `MemoryUpdateCoordinator`, which holds such names.

A name is made like a packed key of a listener: a template that contains the name of the
update type, filled in with the texts of the components. As these are not escaped, a name
shows the components cut at the separators (`fields`) and no more: two keys share a name if
and only if they have the same fields (`buildKey_eq_iff`). They are then one key as long as
neither is empty and no component contains a separator (`not_recut`).
-/

namespace Pyroflow

open PyStr

/-- A component of an `UpdateCoordinatorKeyT`. -/
inductive KeyPart
  | int (i : ℤ)
  | str (text : List Char)
  deriving DecidableEq, Repr

/-- `str(i)`, of a component. -/
def KeyPart.text : KeyPart → List Char
  | .int i => PyStr.str i
  | .str text => text

/-- `UpdateCoordinatorKeyT`. -/
abbrev UpdateCoordinatorKey : Type := List KeyPart

namespace UpdateCoordinator

/-- `_SECTION`. -/
inductive Section
  | lock
  | handled
  deriving DecidableEq, Repr

/-- The text of a section. -/
def Section.text : Section → List Char
  | .lock => "lock".toList
  | .handled => "handled".toList

/-- `_sep`. -/
def sep : Char := '|'

/-- The entry of a section in `_key_formats`, for the name of the update type. -/
def keyFormat (updateName : List Char) (s : Section) : List Char :=
  "update".toList ++ sep :: s.text ++ sep :: updateName ++ sep :: "{key}".toList

/-- The value `build_key` gives to the field of a format. -/
def formatFields (key : UpdateCoordinatorKey) (field : List Char) : Option (List Char) :=
  if field = "key".toList then some ([sep].intercalate (key.map KeyPart.text)) else none

/-- `build_key`; `none` when `format_map` raises. -/
def buildKey (updateName : List Char) (key : UpdateCoordinatorKey) (s : Section := .lock) :
    Option (List Char) :=
  formatMap (formatFields key) none (keyFormat updateName s)

variable {updateName : List Char} {key k₁ k₂ : UpdateCoordinatorKey} {s s₁ s₂ : Section}

/-- Without a brace in the name of the update type, a name is the concatenation of its
    parts. -/
theorem buildKey_eq (h : ∀ c ∈ updateName, c ≠ '{' ∧ c ≠ '}') :
    buildKey updateName key s = some ("update".toList ++ sep :: (s.text ++ sep :: (updateName ++
      sep :: [sep].intercalate (key.map KeyPart.text)))) := by
  have hsep : sep ≠ '{' ∧ sep ≠ '}' := by decide
  have hupdate : ∀ c ∈ "update".toList, c ≠ '{' ∧ c ≠ '}' := by simp
  have hsection : ∀ c ∈ s.text, c ≠ '{' ∧ c ≠ '}' := by
    have hlock : ∀ c ∈ "lock".toList, c ≠ '{' ∧ c ≠ '}' := by simp
    have hhandled : ∀ c ∈ "handled".toList, c ≠ '{' ∧ c ≠ '}' := by simp
    cases s with
    | lock => exact hlock
    | handled => exact hhandled
  have hkey : formatMap (formatFields key) none "{key}".toList =
      some ([sep].intercalate (key.map KeyPart.text)) := by
    have hname : ∀ c ∈ "key".toList, c ≠ '{' ∧ c ≠ '}' := by simp
    have hvalue : formatFields key "key".toList =
        some ([sep].intercalate (key.map KeyPart.text)) := rfl
    exact formatMap_field_end hname hvalue
  unfold buildKey keyFormat
  simp only [List.append_assoc, List.cons_append]
  rw [formatMap_append hupdate, formatMap_cons hsep, formatMap_append hsection,
    formatMap_cons hsep, formatMap_append h, formatMap_cons hsep, hkey]
  rfl

/-! ### What a name shows of a key -/

/-- The components of a key, cut at the separators in them. An empty key is as one that has
    an empty component. -/
def fields (key : UpdateCoordinatorKey) : List (List Char) :=
  if key = [] then [[]] else (key.map KeyPart.text).flatMap (List.splitOn sep)

/-- The components are cut at the separators between them and at those in them. -/
theorem splitOn_intercalate_text :
    ([sep].intercalate (key.map KeyPart.text)).splitOn sep = fields key := by
  cases key with
  | nil => rfl
  | cons i key =>
    rw [fields, if_neg (List.cons_ne_nil i key)]
    induction key generalizing i with
    | nil => simp
    | cons j key ih =>
      rw [List.map_cons, List.map_cons, List.intercalate_cons_cons, List.append_assoc,
        List.singleton_append, List.splitOn_append_cons_self, ← List.map_cons, ih,
        List.flatMap_cons]

/-- The joined components are known from the fields. -/
theorem intercalate_text_inj : [sep].intercalate (k₁.map KeyPart.text) =
    [sep].intercalate (k₂.map KeyPart.text) ↔ fields k₁ = fields k₂ := by
  rw [← splitOn_intercalate_text, ← splitOn_intercalate_text]
  constructor
  · exact congrArg _
  · intro h
    have := congrArg (List.intercalate [sep]) h
    rwa [List.intercalate_splitOn, List.intercalate_splitOn] at this

/-- The texts of different sections already differ in their first letter. -/
theorem Section.eq_of_append_eq {l₁ l₂ : List Char} (h : s₁.text ++ l₁ = s₂.text ++ l₂) :
    s₁ = s₂ := by
  have hne : ∀ {l₁ l₂ : List Char}, "lock".toList ++ l₁ ≠ "handled".toList ++ l₂ := by simp
  cases s₁ <;> cases s₂
  · rfl
  · exact absurd h hne
  · exact absurd h.symm hne
  · rfl

/-- A name stands for one section, and for the keys with the same fields. -/
theorem buildKey_eq_iff (h : ∀ c ∈ updateName, c ≠ '{' ∧ c ≠ '}') :
    buildKey updateName k₁ s₁ = buildKey updateName k₂ s₂ ↔
      s₁ = s₂ ∧ fields k₁ = fields k₂ := by
  rw [buildKey_eq h, buildKey_eq h, Option.some_inj, List.append_cancel_left_eq,
    List.cons_inj_right, ← intercalate_text_inj]
  constructor
  · intro heq
    obtain rfl := Section.eq_of_append_eq heq
    simpa using heq
  · intro ⟨hs, heq⟩
    rw [hs, heq]

/-- The keys are different, but each has the components of the other, joined or cut at
    separators in them. -/
def Recut (k₁ k₂ : UpdateCoordinatorKey) : Prop :=
  k₁.map KeyPart.text ≠ k₂.map KeyPart.text ∧ fields k₁ = fields k₂

/-- It takes a separator in a component, or an empty key. -/
theorem not_recut (h₁ : k₁ ≠ []) (h₂ : k₂ ≠ []) (h : ∀ i ∈ k₁ ++ k₂, sep ∉ i.text) :
    ¬ Recut k₁ k₂ := by
  have hfields : ∀ {key : UpdateCoordinatorKey}, key ≠ [] → (∀ i ∈ key, sep ∉ i.text) →
      fields key = key.map KeyPart.text := by
    intro key hne hsep
    rw [← splitOn_intercalate_text]
    refine List.splitOn_intercalate sep (fun l hl => ?_) (by simpa using hne)
    obtain ⟨i, hi, rfl⟩ := List.mem_map.1 hl
    exact hsep i hi
  intro ⟨hne, heq⟩
  rw [hfields h₁ fun i hi => h i (List.mem_append_left k₂ hi),
    hfields h₂ fun i hi => h i (List.mem_append_right k₁ hi)] at heq
  exact hne heq

/-- Two names are the same for one section and keys of the same components only, if and
    only if the keys are not recuts of each other in one section. -/
theorem buildKey_injective_iff (h : ∀ c ∈ updateName, c ≠ '{' ∧ c ≠ '}') :
    ∀ k₁ k₂ s₁ s₂,
      (buildKey updateName k₁ s₁ = buildKey updateName k₂ s₂ →
        s₁ = s₂ ∧ k₁.map KeyPart.text = k₂.map KeyPart.text) ↔ ¬ (s₁ = s₂ ∧ Recut k₁ k₂) := by
  intro k₁ k₂ s₁ s₂
  rw [buildKey_eq_iff h]
  constructor
  · intro himp ⟨hs, hne, heq⟩
    exact hne (himp ⟨hs, heq⟩).2
  · intro hrecut ⟨hs, heq⟩
    exact ⟨hs, of_not_not fun hne => hrecut ⟨hs, hne, heq⟩⟩

/-- The keys of two messages. -/
theorem buildKey_injective_iff_message :
    (buildKey "Message".toList [.int 5, .int 7] .handled =
        buildKey "Message".toList [.int 5, .int 8] .handled →
      Section.handled = .handled ∧
        [KeyPart.int 5, .int 7].map KeyPart.text = [KeyPart.int 5, .int 8].map KeyPart.text) ↔
      ¬ (Section.handled = .handled ∧ Recut [.int 5, .int 7] [.int 5, .int 8]) :=
  buildKey_injective_iff (by simp) _ _ _ _

/-- A separator may stand in the first component or in the second. -/
theorem buildKey_separator : ¬∀ updateName : List Char,
    (∀ c ∈ updateName, c ≠ sep ∧ c ≠ '{' ∧ c ≠ '}') → ∀ k₁ k₂ s₁ s₂,
      buildKey updateName k₁ s₁ = buildKey updateName k₂ s₂ →
        s₁ = s₂ ∧ k₁.map KeyPart.text = k₂.map KeyPart.text := by
  intro h
  have := h "Message".toList (by simp [sep]) [.str "a|b".toList, .str "c".toList]
    [.str "a".toList, .str "b|c".toList] .handled .handled (by decide)
  exact absurd this.2 (by decide)

end UpdateCoordinator

/-! ### The registry -/

/-- A `MemoryUpdateCoordinator`, with its registry of handled updates. -/
structure MemoryUpdateCoordinator {Time : Type} (M : Mapping (List Char) Unit Time) where
  updateName : List Char
  handled : M.Dict

namespace MemoryUpdateCoordinator

open UpdateCoordinator

variable {Time : Type} {M : Mapping (List Char) Unit Time} (m : MemoryUpdateCoordinator M)

/-- `is_handled`. -/
def isHandled (now : Time) (key : UpdateCoordinatorKey) : Option Bool :=
  (buildKey m.updateName key .handled).map fun name => (M.lookup m.handled now name).isSome

/-- `mark_handled`. -/
def markHandled (now : Time) (key : UpdateCoordinatorKey) : Option (MemoryUpdateCoordinator M) :=
  (buildKey m.updateName key .handled).map fun name =>
    { m with handled := M.assign m.handled now name () }

variable {m} {m' : MemoryUpdateCoordinator M} {now : Time} {k₁ k₂ : UpdateCoordinatorKey}

/-- The registry does not tell keys with the same fields apart. -/
theorem isHandled_congr (h : ∀ c ∈ m.updateName, c ≠ '{' ∧ c ≠ '}') (heq : fields k₁ = fields k₂) :
    m.isHandled now k₁ = m.isHandled now k₂ := by
  rw [isHandled, isHandled, (buildKey_eq_iff h).2 ⟨rfl, heq⟩]

/-- Marking a key makes no others be taken for handled. -/
theorem fields_eq_of_isHandled [LinearOrder Time] [Add Time] {ttl : Time} {maxHandled : ℕ}
    (c : M.TtlCache ttl maxHandled) (h : ∀ c ∈ m.updateName, c ≠ '{' ∧ c ≠ '}')
    (hmark : m.markHandled now k₁ = some m') (hold : m.isHandled now k₂ = some false)
    (hnew : m'.isHandled now k₂ = some true) : fields k₁ = fields k₂ := by
  obtain ⟨name, hname, rfl⟩ := Option.map_eq_some_iff.1 hmark
  obtain ⟨name', hname', hfound⟩ := Option.map_eq_some_iff.1 hnew
  dsimp only at hname' hfound
  rw [isHandled, hname', Option.map_some, Option.some_inj] at hold
  -- A name that was not found before is found only if it is the one assigned.
  by_cases hne : name' = name
  · exact ((buildKey_eq_iff h).1 (hname.trans (hne ▸ hname'.symm))).2
  · obtain ⟨v, hv⟩ := Option.isSome_iff_exists.1 hfound
    obtain ⟨e, he, -, hlive⟩ := c.exists_entry hv
    rw [c.lookup_of_live (c.of_entry_assign hne he) hlive] at hold
    cases hold

end MemoryUpdateCoordinator

end Pyroflow
