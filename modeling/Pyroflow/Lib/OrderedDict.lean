import Mathlib.Data.List.Nodup
import Mathlib.Data.List.Pairwise

/-!
# Dictionaries in order

The dictionaries of Python: a key has one value, and the items are in the order in which their
keys came to the dictionary (`OrderedDict`). A new value for a key that is there leaves the key in
its place (`set`); a key that is removed comes last when it comes back (`pop`).

After some operations, the value of a key is the last one it was given, and its place is told by
the operation since which it has been there. Both can be told of each key alone, from the
operations on this key (`last`, `since`). The items are the keys that are there with their last
values (`mem_items_dictOf`), in the order in which they came (`pairwise_dictOf`); so the first item
that meets a condition is, of those that meet it, the one that has been there longest
(`find?_dictOf_eq_some_iff`).
-/

/-- A dictionary: its items in order, of different keys. -/
@[ext] structure OrderedDict (K V : Type*) where
  items : List (K × V)
  nodup : (items.map Prod.fst).Nodup

namespace OrderedDict

variable {K V : Type*} [DecidableEq K]

/-! ### Operations -/

/-- The items after `d[k] = v`. -/
def setItems (k : K) (v : V) : List (K × V) → List (K × V)
  | [] => [(k, v)]
  | (k', v') :: items =>
    if k' = k then (k, v) :: items else (k', v') :: setItems k v items

variable {k k' : K} {v v' : V} {items : List (K × V)}

theorem map_fst_setItems_of_mem (h : k ∈ items.map Prod.fst) :
    (setItems k v items).map Prod.fst = items.map Prod.fst := by
  induction items with
  | nil => exact absurd h List.not_mem_nil
  | cons item items ih =>
    rw [setItems]
    split
    case isTrue hk => rw [List.map_cons, List.map_cons, hk]
    case isFalse hk =>
      rw [List.map_cons, List.map_cons, ih ((List.mem_cons.1 h).resolve_left (Ne.symm hk))]

theorem setItems_of_not_mem (h : k ∉ items.map Prod.fst) :
    setItems k v items = items ++ [(k, v)] := by
  induction items with
  | nil => rfl
  | cons item items ih =>
    rw [List.map_cons, List.mem_cons, not_or] at h
    rw [setItems, if_neg (Ne.symm h.1), ih h.2, List.cons_append]

theorem nodup_setItems (h : (items.map Prod.fst).Nodup) :
    ((setItems k v items).map Prod.fst).Nodup := by
  by_cases hk : k ∈ items.map Prod.fst
  · rwa [map_fst_setItems_of_mem hk]
  · rw [setItems_of_not_mem hk, List.map_append, List.nodup_append]
    refine ⟨h, List.nodup_singleton _, fun k₁ h₁ k₂ h₂ heq => hk ?_⟩
    rwa [← show k₂ = k from List.mem_singleton.1 h₂, ← heq]

theorem mem_setItems (h : (items.map Prod.fst).Nodup) :
    (k', v') ∈ setItems k v items ↔ k' = k ∧ v' = v ∨ k' ≠ k ∧ (k', v') ∈ items := by
  induction items with
  | nil => simp [setItems]
  | cons item items ih =>
    rw [List.map_cons, List.nodup_cons] at h
    rw [setItems]
    split
    case isTrue hk =>
      have hne : (k', v') ∈ items → k' ≠ k := by
        rintro hmem rfl
        exact h.1 (hk ▸ List.mem_map_of_mem hmem)
      grind
    case isFalse hk =>
      rw [List.mem_cons, List.mem_cons, ih h.2]
      grind

/-- `{}`. -/
def empty : OrderedDict K V := ⟨[], List.nodup_nil⟩

/-- `d[k] = v`. -/
def set (d : OrderedDict K V) (k : K) (v : V) : OrderedDict K V :=
  ⟨setItems k v d.items, nodup_setItems d.nodup⟩

/-- `d.pop(k, None)`. -/
def pop (d : OrderedDict K V) (k : K) : OrderedDict K V :=
  ⟨d.items.filter fun item => item.1 ≠ k, d.nodup.sublist (List.filter_sublist.map _)⟩

/-- `d.get(k)`. -/
def get? (d : OrderedDict K V) (k : K) : Option V :=
  (d.items.find? fun item => item.1 = k).map Prod.snd

/-! ### Operations one after another -/

/-- An operation. -/
inductive Op (K V : Type*)
  | set (k : K) (v : V)
  | pop (k : K)

/-- What an operation does. -/
def apply (d : OrderedDict K V) : Op K V → OrderedDict K V
  | .set k v => d.set k v
  | .pop k => d.pop k

/-- The dictionary after some operations, the last one first. -/
def dictOf : List (Op K V) → OrderedDict K V
  | [] => empty
  | op :: ops => (dictOf ops).apply op

/-- The last value of a key, if it has not been removed since. -/
def last (k : K) : List (Op K V) → Option V
  | [] => none
  | .set k' v :: ops => if k' = k then some v else last k ops
  | .pop k' :: ops => if k' = k then none else last k ops

/-- The operation since which a key has been there, by the number of those before it. -/
def since (k : K) : List (Op K V) → Option ℕ
  | [] => none
  | .set k' _ :: ops => if k' = k then (since k ops).or (some ops.length) else since k ops
  | .pop k' :: ops => if k' = k then none else since k ops

variable {d : OrderedDict K V} {ops : List (Op K V)} {i j : ℕ} {p : K → Bool}

@[simp] theorem items_set : (d.set k v).items = setItems k v d.items := rfl

@[simp] theorem items_pop : (d.pop k).items = d.items.filter fun item => item.1 ≠ k := rfl

theorem mem_items_set :
    (k', v') ∈ (d.set k v).items ↔ k' = k ∧ v' = v ∨ k' ≠ k ∧ (k', v') ∈ d.items :=
  mem_setItems d.nodup

theorem mem_items_pop : (k', v') ∈ (d.pop k).items ↔ k' ≠ k ∧ (k', v') ∈ d.items := by
  rw [pop, List.mem_filter, decide_eq_true_iff, and_comm]

theorem get?_eq_some_iff : d.get? k = some v ↔ (k, v) ∈ d.items := by
  have hkey {item : K × V} (h : d.items.find? (fun item => item.1 = k) = some item) :
      item.1 = k := by simpa using List.find?_some h
  rw [get?, Option.map_eq_some_iff]
  constructor
  · rintro ⟨item, hfind, rfl⟩
    rw [← hkey hfind]
    exact List.mem_of_find?_eq_some hfind
  · intro hmem
    obtain ⟨item, hfind⟩ : ∃ item, d.items.find? (fun item => item.1 = k) = some item :=
      Option.isSome_iff_exists.1 (List.find?_isSome.2 ⟨(k, v), hmem, by simp⟩)
    refine ⟨item, hfind, ?_⟩
    rw [List.inj_on_of_nodup_map d.nodup (List.mem_of_find?_eq_some hfind) hmem (hkey hfind)]

theorem mem_keys_iff : k ∈ d.items.map Prod.fst ↔ (d.get? k).isSome = true := by
  rw [List.mem_map, Option.isSome_iff_exists]
  constructor
  · rintro ⟨⟨k, v⟩, hmem, rfl⟩
    exact ⟨v, get?_eq_some_iff.2 hmem⟩
  · rintro ⟨v, hv⟩
    exact ⟨(k, v), get?_eq_some_iff.1 hv, rfl⟩

theorem get?_set : (d.set k v).get? k = some v := by
  rw [get?_eq_some_iff, mem_items_set]
  exact .inl ⟨rfl, rfl⟩

theorem get?_set_of_ne (h : k' ≠ k) : (d.set k v).get? k' = d.get? k' := by
  refine Option.ext fun v' => ?_
  rw [get?_eq_some_iff, get?_eq_some_iff, mem_items_set]
  exact ⟨fun hmem => (hmem.resolve_left fun heq => h heq.1).2, fun hmem => .inr ⟨h, hmem⟩⟩

theorem get?_pop : (d.pop k).get? k = none := by
  refine Option.eq_none_iff_forall_ne_some.2 fun v hv => ?_
  exact (mem_items_pop.1 (get?_eq_some_iff.1 hv)).1 rfl

theorem get?_pop_of_ne (h : k' ≠ k) : (d.pop k).get? k' = d.get? k' := by
  refine Option.ext fun v' => ?_
  rw [get?_eq_some_iff, get?_eq_some_iff, mem_items_pop]
  exact and_iff_right h

theorem pop_eq_self (h : d.items = []) : d.pop k = d := by
  ext1
  rw [items_pop, h, List.filter_nil]

/-- The items are the keys that are there, with their last values. -/
theorem mem_items_dictOf : (k, v) ∈ (dictOf ops).items ↔ last k ops = some v := by
  induction ops with
  | nil => simp [dictOf, empty, last]
  | cons op ops ih =>
    cases op with
    | set k' v' =>
      rw [dictOf, apply, mem_items_set, ih, last]
      split <;> grind
    | pop k' =>
      rw [dictOf, apply, mem_items_pop, ih, last]
      split <;> grind

theorem mem_keys_dictOf : k ∈ (dictOf ops).items.map Prod.fst ↔ ∃ v, last k ops = some v := by
  rw [List.mem_map]
  constructor
  · rintro ⟨⟨k, v⟩, hmem, rfl⟩
    exact ⟨v, mem_items_dictOf.1 hmem⟩
  · rintro ⟨v, hv⟩
    exact ⟨(k, v), mem_items_dictOf.2 hv, rfl⟩

/-- A key has a value since it has been there. -/
theorem isSome_since : (since k ops).isSome = (last k ops).isSome := by
  induction ops with
  | nil => rfl
  | cons op ops ih =>
    cases op with
    | set k' v' =>
      rw [since, last]
      split
      case isTrue hk => simp
      case isFalse hk => exact ih
    | pop k' =>
      rw [since, last]
      split
      case isTrue hk => rfl
      case isFalse hk => exact ih

theorem mem_keys_dictOf_iff_since :
    k ∈ (dictOf ops).items.map Prod.fst ↔ ∃ i, since k ops = some i := by
  rw [mem_keys_dictOf, ← Option.isSome_iff_exists, ← isSome_since, Option.isSome_iff_exists]

/-- It came with one of the operations. -/
theorem lt_of_since (h : since k ops = some i) : i < ops.length := by
  induction ops with
  | nil => cases h
  | cons op ops ih =>
    rw [List.length_cons]
    cases op with
    | set k' v' =>
      rw [since] at h
      split at h
      case isTrue hk =>
        rcases Option.or_eq_some_iff.1 h with h | ⟨-, h⟩
        · exact Nat.lt_succ_of_lt (ih h)
        · exact Option.some.inj h ▸ Nat.lt_succ_self _
      case isFalse hk => exact Nat.lt_succ_of_lt (ih h)
    | pop k' =>
      rw [since] at h
      split at h
      case isTrue hk => cases h
      case isFalse hk => exact Nat.lt_succ_of_lt (ih h)

variable (ops) in
/-- A key came before another. -/
def Before (k k' : K) : Prop := ∀ i j, since k ops = some i → since k' ops = some j → i < j

/-- The keys are in the order in which they came. -/
theorem pairwise_dictOf : ((dictOf ops).items.map Prod.fst).Pairwise (Before ops) := by
  induction ops with
  | nil => exact .nil
  | cons op ops ih =>
    cases op with
    | set k v =>
      rw [dictOf, apply, items_set]
      by_cases hk : k ∈ (dictOf ops).items.map Prod.fst
      · -- The key stays where it is.
        obtain ⟨i, hi⟩ := mem_keys_dictOf_iff_since.1 hk
        have hsince (k' : K) : since k' (.set k v :: ops) = since k' ops := by
          rw [since]
          split
          case isTrue hk' => rw [← hk', hi, Option.some_or]
          case isFalse => rfl
        rw [map_fst_setItems_of_mem hk]
        exact ih.imp fun hbefore i j hi hj => hbefore i j (hsince _ ▸ hi) (hsince _ ▸ hj)
      · -- The key comes last.
        have hsince {k' : K} (hne : k' ≠ k) : since k' (.set k v :: ops) = since k' ops := by
          rw [since, if_neg (Ne.symm hne)]
        have hnew : since k (.set k v :: ops) = some ops.length := by
          rw [since, if_pos rfl, Option.eq_none_iff_forall_ne_some.2 fun i hi =>
            hk (mem_keys_dictOf_iff_since.2 ⟨i, hi⟩), Option.none_or]
        have hne {k' : K} (hk' : k' ∈ (dictOf ops).items.map Prod.fst) : k' ≠ k := by
          rintro rfl
          exact hk hk'
        rw [setItems_of_not_mem hk, List.map_append, List.pairwise_append]
        refine ⟨?_, List.pairwise_singleton _ _, fun k₁ h₁ k₂ h₂ i j hi hj => ?_⟩
        · refine ih.imp_of_mem fun h₁ h₂ hbefore i j hi hj => hbefore i j ?_ ?_
          · rwa [hsince (hne h₁)] at hi
          · rwa [hsince (hne h₂)] at hj
        · rw [show k₂ = k from List.mem_singleton.1 h₂, hnew] at hj
          rw [hsince (hne h₁)] at hi
          exact Option.some.inj hj ▸ lt_of_since hi
    | pop k =>
      rw [dictOf, apply, items_pop]
      have hof {k' : K} {i : ℕ} (h : since k' (.pop k :: ops) = some i) :
          since k' ops = some i := by
        rw [since] at h
        exact (Option.ite_none_left_eq_some.1 h).2
      have hsub := (List.filter_sublist (p := fun item => decide (item.1 ≠ k))
        (l := (dictOf ops).items)).map Prod.fst
      exact (ih.sublist hsub).imp fun hbefore i j hi hj => hbefore i j (hof hi) (hof hj)

/-- Two keys did not come with the same operation. -/
theorem since_injective (h : since k ops = some i) (h' : since k' ops = some i) : k = k' := by
  by_contra hne
  have hpair : ((dictOf ops).items.map Prod.fst).Pairwise
      fun k k' => ∀ i, since k ops = some i → since k' ops ≠ some i :=
    pairwise_dictOf.imp fun hbefore i hi hj => absurd (hbefore i i hi hj) (Nat.lt_irrefl i)
  have : Std.Symm fun k k' : K => ∀ i, since k ops = some i → since k' ops ≠ some i :=
    ⟨fun k k' hkk' i hk' hk => hkk' i hk hk'⟩
  exact hpair.forall (mem_keys_dictOf_iff_since.2 ⟨i, h⟩) (mem_keys_dictOf_iff_since.2 ⟨i, h'⟩) hne
    i h h'

/-- The item that is found came before the others that meet the condition. -/
theorem of_find?_dictOf
    (h : ((dictOf ops).items.find? fun item => p item.1) = some (k, v)) :
    p k = true ∧ last k ops = some v ∧
      ∀ k' i, p k' = true → since k' ops = some i → ∃ j, since k ops = some j ∧ j ≤ i := by
  obtain ⟨hp, as, bs, hitems, has⟩ := List.find?_eq_some_iff_append.1 h
  have hmem : (k, v) ∈ (dictOf ops).items := by simp [hitems]
  obtain ⟨j, hj⟩ := mem_keys_dictOf_iff_since.1 (List.mem_map_of_mem hmem)
  refine ⟨hp, mem_items_dictOf.1 hmem, fun k' i hp' hi => ⟨j, hj, ?_⟩⟩
  have hpair : ((dictOf ops).items.map Prod.fst).Pairwise (Before ops) := pairwise_dictOf
  have hk' := mem_keys_dictOf_iff_since.2 ⟨i, hi⟩
  rw [hitems, List.map_append, List.map_cons] at hpair hk'
  rcases List.mem_append.1 hk' with hk' | hk'
  · obtain ⟨item, hitem, rfl⟩ := List.mem_map.1 hk'
    have hnot := has item hitem
    rw [hp'] at hnot
    cases hnot
  · rcases List.mem_cons.1 hk' with rfl | hk'
    · exact Nat.le_of_eq (Option.some.inj (hj.symm.trans hi))
    · have hbefore := (List.pairwise_cons.1 (List.pairwise_append.1 hpair).2.1).1 k' hk'
      exact Nat.le_of_lt (hbefore j i hj hi)

/-- The first item that meets a condition is the one that came first. -/
theorem find?_dictOf_eq_some_iff :
    ((dictOf ops).items.find? fun item => p item.1) = some (k, v) ↔
      p k = true ∧ last k ops = some v ∧
        ∀ k' i, p k' = true → since k' ops = some i → ∃ j, since k ops = some j ∧ j ≤ i := by
  refine ⟨of_find?_dictOf, fun ⟨hp, hlast, hfirst⟩ => ?_⟩
  have hmem := mem_items_dictOf.2 hlast
  obtain ⟨⟨k', v'⟩, hfind⟩ : ∃ item, (dictOf ops).items.find? (fun item => p item.1) = some item :=
    Option.isSome_iff_exists.1 (List.find?_isSome.2 ⟨(k, v), hmem, hp⟩)
  obtain ⟨hp', hlast', hfirst'⟩ := of_find?_dictOf hfind
  obtain ⟨j, hj⟩ := mem_keys_dictOf_iff_since.1 (List.mem_map_of_mem hmem)
  obtain ⟨j', hj', hle⟩ := hfirst' k j hp hj
  obtain ⟨j₁, hj₁, hle'⟩ := hfirst k' j' hp' hj'
  obtain rfl := Option.some.inj (hj₁.symm.trans hj)
  obtain rfl := Nat.le_antisymm hle hle'
  obtain rfl := since_injective hj' hj
  obtain rfl := Option.some.inj (hlast'.symm.trans hlast)
  exact hfind

end OrderedDict
