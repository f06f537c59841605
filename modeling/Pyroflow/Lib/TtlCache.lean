import Mathlib.Data.Finset.Card
import Mathlib.Data.Finset.Dedup
import Mathlib.Data.List.Dedup
import Mathlib.Order.Basic
import Pyroflow.Lib.Mapping
import Pyroflow.Lib.OrderedDict

/-!
# Caches with a time to live

A mapping that forgets (`Mapping.TtlCache`): an entry is found for `ttl` after it was last
assigned. Neither a look at it nor a change of its value in place makes it last longer. As
long as the keys found fit (`Mapping.Fits`), an assignment drops no entry that has not
expired; which ones it drops where they do not is left open.

`Mapping.lru` is such a cache: it drops the least recently used.
-/

namespace Mapping

variable {K V Time : Type}

/-- The keys found at a time are, together with one more, at most `maxKeys`. -/
def Fits (M : Mapping K V Time) (maxKeys : ℕ) (d : M.Dict) (now : Time) (key : K) : Prop :=
  ∃ s : Finset K, key ∈ s ∧ (∀ k, (M.lookup d now k).isSome → k ∈ s) ∧ s.card ≤ maxKeys

/-- An entry of a cache: a value, and when it was last assigned. -/
structure Entry (V Time : Type) where
  value : V
  assigned : Time

variable [LinearOrder Time] [Add Time]

/-- The mapping is a cache of at most `maxKeys` keys, where an entry lives for `ttl`. -/
structure TtlCache (M : Mapping K V Time) (ttl : Time) (maxKeys : ℕ) where
  /-- The entry kept under a key, also after it has expired. -/
  entry : M.Dict → K → Option (Entry V Time)
  entry_empty : ∀ k, entry M.empty k = none
  lookup_eq : ∀ d now k, M.lookup d now k =
    ((entry d k).filter fun e => now < e.assigned + ttl).map (·.value)
  entry_access : ∀ d key k, entry (M.access d key) k = entry d k
  entry_assign_self : ∀ {d now key} v, M.Fits maxKeys d now key →
    entry (M.assign d now key v) key = some ⟨v, now⟩
  /-- Nothing is stored under the other keys. -/
  of_entry_assign : ∀ {d now key v k e}, k ≠ key →
    entry (M.assign d now key v) k = some e → entry d k = some e
  /-- Nothing else is lost but what has expired. -/
  entry_assign : ∀ {d now key k e} v, M.Fits maxKeys d now key → k ≠ key →
    entry d k = some e → now < e.assigned + ttl → entry (M.assign d now key v) k = some e
  entry_mutate_self : ∀ d key v, entry (M.mutate d key v) key =
    (entry d key).map fun e => { e with value := v }
  entry_mutate : ∀ {d key k} v, k ≠ key → entry (M.mutate d key v) k = entry d k
  entry_delete_self : ∀ d key, entry (M.delete d key) key = none
  entry_delete : ∀ {d key k}, k ≠ key → entry (M.delete d key) k = entry d k

namespace TtlCache

variable {M : Mapping K V Time} {ttl : Time} {maxKeys : ℕ} (c : M.TtlCache ttl maxKeys)
  {d : M.Dict} {now : Time} {key k : K} {v default : V} {e : Entry V Time}

theorem lookup_of_live (he : c.entry d k = some e) (hlive : now < e.assigned + ttl) :
    M.lookup d now k = some e.value := by
  rw [c.lookup_eq, he, Option.filter_some, if_pos (decide_eq_true hlive), Option.map_some]

theorem lookup_of_expired (he : ∀ e, c.entry d k = some e → ¬ now < e.assigned + ttl) :
    M.lookup d now k = none := by
  rw [c.lookup_eq]
  cases h : c.entry d k with
  | none => rfl
  | some e => rw [Option.filter_some, if_neg (by simpa using he e h), Option.map_none]

/-- What is found is an entry that has not expired. -/
theorem exists_entry (h : M.lookup d now k = some v) :
    ∃ e, c.entry d k = some e ∧ e.value = v ∧ now < e.assigned + ttl := by
  rw [c.lookup_eq, Option.map_eq_some_iff] at h
  obtain ⟨e, he, hv⟩ := h
  obtain ⟨he, hlive⟩ := Option.filter_eq_some_iff.1 he
  exact ⟨e, he, hv, of_decide_eq_true hlive⟩

/-- `pop` leaves the entries under other keys. -/
theorem entry_pop (h : k ≠ key) : c.entry (M.pop d now key default).2 k = c.entry d k := by
  rw [pop]
  split
  · rw [c.entry_delete h, c.entry_access]
  · rfl

/-- `pop` adds no entry. -/
theorem of_entry_pop (h : c.entry (M.pop d now key default).2 k = some e) :
    c.entry d k = some e := by
  by_cases hk : k = key
  · subst hk
    rw [pop] at h
    split at h
    · rw [c.entry_delete_self] at h
      cases h
    · exact h
  · rwa [c.entry_pop hk] at h

variable (d now key default) in
/-- The entry that `setdefault` leaves under its key. -/
def current : Entry V Time :=
  ((c.entry d key).filter fun e => now < e.assigned + ttl).getD ⟨default, now⟩

theorem current_of_live (he : c.entry d key = some e) (hlive : now < e.assigned + ttl) :
    c.current d now key default = e := by
  rw [current, he, Option.filter_some, if_pos (decide_eq_true hlive), Option.getD_some]

theorem current_of_expired (h : M.lookup d now key = none) :
    c.current d now key default = ⟨default, now⟩ := by
  rw [c.lookup_eq, Option.map_eq_none_iff] at h
  rw [current, h, Option.getD_none]

theorem setdefault_fst :
    (M.setdefault d now key default).1 = (c.current d now key default).value := by
  rw [setdefault]
  split
  next v hv =>
    obtain ⟨e, he, rfl, hlive⟩ := c.exists_entry hv
    rw [c.current_of_live he hlive]
  next hv => rw [c.current_of_expired hv]

theorem entry_setdefault_self (hfits : M.Fits maxKeys d now key) :
    c.entry (M.setdefault d now key default).2 key = some (c.current d now key default) := by
  rw [setdefault]
  split
  next v hv =>
    obtain ⟨e, he, rfl, hlive⟩ := c.exists_entry hv
    rw [c.entry_access, c.current_of_live he hlive, he]
  next hv => rw [c.entry_assign_self default hfits, c.current_of_expired hv]

/-- `setdefault` keeps the entries under the other keys that have not expired. -/
theorem entry_setdefault (hfits : M.Fits maxKeys d now key) (hne : k ≠ key)
    (he : c.entry d k = some e) (hlive : now < e.assigned + ttl) :
    c.entry (M.setdefault d now key default).2 k = some e := by
  rw [setdefault]
  split
  · rwa [c.entry_access]
  · exact c.entry_assign default hfits hne he hlive

/-- `setdefault` adds no entry under the other keys. -/
theorem of_entry_setdefault (hne : k ≠ key)
    (he : c.entry (M.setdefault d now key default).2 k = some e) : c.entry d k = some e := by
  rw [setdefault] at he
  split at he
  · rwa [c.entry_access] at he
  · exact c.of_entry_assign hne he

end TtlCache

/-! ### Caches that drop the least recently used -/

variable [DecidableEq K]

/-- The cache drops the least recently used. A look at an entry, and an assignment to its key,
    use it. An assignment drops what has expired, and those of the others that have not been
    used for the longest time, as far as there are too many. -/
structure EvictsLru {M : Mapping K V Time} {ttl : Time} {maxKeys : ℕ}
    (c : M.TtlCache ttl maxKeys) where
  /-- The keys of the entries, the most recently used first. -/
  recent : M.Dict → List K
  nodup_recent : ∀ d, (recent d).Nodup
  mem_recent : ∀ d k, k ∈ recent d ↔ (c.entry d k).isSome = true
  recent_access : ∀ {d key}, key ∈ recent d →
    recent (M.access d key) = key :: (recent d).filter fun k => k ≠ key
  recent_assign : ∀ d now key v, recent (M.assign d now key v) =
    key :: ((recent d).filter fun k => (M.lookup d now k).isSome && k ≠ key).take (maxKeys - 1)
  /-- There is always room for the key that is assigned to. -/
  entry_assign : ∀ d now key v, c.entry (M.assign d now key v) key = some ⟨v, now⟩

/-- The entries of such a cache, the most recently used first. -/
abbrev Lru (K V Time : Type) := OrderedDict K (Entry V Time)

namespace Lru

variable {ttl now : Time} {maxKeys : ℕ} {d : Lru K V Time} {key k : K} {v : V} {e : Entry V Time}

/-- The items but for one, as far as they have not expired. -/
def others (d : Lru K V Time) (ttl now : Time) (key : K) : List (K × Entry V Time) :=
  (d.pop key).items.filter fun item => now < item.2.assigned + ttl

theorem mem_others : (k, e) ∈ d.others ttl now key ↔
    (k ≠ key ∧ (k, e) ∈ d.items) ∧ now < e.assigned + ttl := by
  rw [others, List.mem_filter, OrderedDict.mem_items_pop, decide_eq_true_iff]

omit [LinearOrder Time] [Add Time] in
/-- An item comes before some others. -/
theorem nodup_cons {items : List (K × Entry V Time)} (h : items.Sublist (d.pop key).items) :
    (((key, e) :: items).map Prod.fst).Nodup := by
  rw [List.map_cons, List.nodup_cons]
  refine ⟨fun hk => ?_, (d.pop key).nodup.sublist (h.map _)⟩
  obtain ⟨item, hitem, heq⟩ := List.mem_map.1 hk
  exact (OrderedDict.mem_items_pop.1 (h.subset hitem)).1 heq

/-- A look at an entry. -/
def access (d : Lru K V Time) (key : K) : Lru K V Time :=
  match d.get? key with
  | some e => ⟨(key, e) :: (d.pop key).items, nodup_cons (.refl _)⟩
  | none => d

/-- An assignment. -/
def assign (d : Lru K V Time) (ttl : Time) (maxKeys : ℕ) (now : Time) (key : K) (v : V) :
    Lru K V Time :=
  ⟨(key, ⟨v, now⟩) :: (d.others ttl now key).take (maxKeys - 1),
    nodup_cons ((List.take_sublist ..).trans List.filter_sublist)⟩

/-- A change of the value in place. -/
def mutate (d : Lru K V Time) (key : K) (v : V) : Lru K V Time :=
  match d.get? key with
  | some e => d.set key { e with value := v }
  | none => d

omit [LinearOrder Time] [Add Time] in
theorem items_access (h : d.get? key = some e) :
    (d.access key).items = (key, e) :: (d.pop key).items := by
  unfold access
  rw [h]

omit [LinearOrder Time] [Add Time] in
theorem keys_access (h : key ∈ d.items.map Prod.fst) : (d.access key).items.map Prod.fst =
    key :: (d.items.map Prod.fst).filter fun k => k ≠ key := by
  obtain ⟨e, he⟩ := Option.isSome_iff_exists.1 (OrderedDict.mem_keys_iff.1 h)
  rw [items_access he, List.map_cons, OrderedDict.items_pop, List.filter_map]
  rfl

omit [LinearOrder Time] [Add Time] in
theorem get?_access : (d.access key).get? k = d.get? k := by
  cases h : d.get? key with
  | none =>
    unfold access
    rw [h]
  | some e =>
    by_cases hk : k = key
    · subst hk
      rw [h, OrderedDict.get?_eq_some_iff, items_access h]
      exact List.mem_cons_self
    · refine Option.ext fun e' => ?_
      rw [OrderedDict.get?_eq_some_iff, OrderedDict.get?_eq_some_iff, items_access h, List.mem_cons,
        OrderedDict.mem_items_pop, or_iff_right fun heq => hk (congrArg Prod.fst heq)]
      exact and_iff_right hk

theorem get?_assign : (d.assign ttl maxKeys now key v).get? key = some ⟨v, now⟩ :=
  OrderedDict.get?_eq_some_iff.2 List.mem_cons_self

theorem get?_assign_of_ne (h : k ≠ key) : (d.assign ttl maxKeys now key v).get? k = some e ↔
    (k, e) ∈ (d.others ttl now key).take (maxKeys - 1) := by
  rw [OrderedDict.get?_eq_some_iff, assign, List.mem_cons]
  exact or_iff_right fun heq => h (congrArg Prod.fst heq)

omit [LinearOrder Time] [Add Time] in
theorem get?_mutate : (d.mutate key v).get? key =
    (d.get? key).map fun e => { e with value := v } := by
  cases h : d.get? key with
  | none =>
    unfold mutate
    rw [h, Option.map_none]
    exact h
  | some e =>
    unfold mutate
    rw [h, Option.map_some]
    exact OrderedDict.get?_set

omit [LinearOrder Time] [Add Time] in
theorem get?_mutate_of_ne (h : k ≠ key) : (d.mutate key v).get? k = d.get? k := by
  unfold mutate
  split
  · exact OrderedDict.get?_set_of_ne h
  · rfl

end Lru

/-- The cache of at most `maxKeys` keys, where an entry lives for `ttl`, and which drops the least
    recently used. -/
def lru (K V : Type) [DecidableEq K] (ttl : Time) (maxKeys : ℕ) : Mapping K V Time where
  Dict := Lru K V Time
  empty := .empty
  lookup d now key := ((d.get? key).filter fun e => now < e.assigned + ttl).map (·.value)
  access d key := d.access key
  assign d now key v := d.assign ttl maxKeys now key v
  mutate d key v := d.mutate key v
  delete d key := d.pop key

variable {ttl now : Time} {maxKeys : ℕ} {d : Lru K V Time} {key : K}

theorem lookup_lru : (lru K V ttl maxKeys).lookup d now key =
    ((d.get? key).filter fun e => now < e.assigned + ttl).map (·.value) := rfl

theorem Lru.keys_assign {v : V} : (d.assign ttl maxKeys now key v).items.map Prod.fst =
    key :: ((d.items.map Prod.fst).filter fun k =>
      ((lru K V ttl maxKeys).lookup d now k).isSome && k ≠ key).take (maxKeys - 1) := by
  refine congrArg (List.cons key) ?_
  rw [List.map_take, Lru.others, OrderedDict.items_pop, List.filter_filter, List.filter_map]
  congr 2
  refine List.filter_congr fun item hitem => ?_
  rw [Function.comp_apply, lookup_lru, OrderedDict.get?_eq_some_iff.2 hitem, Option.filter_some,
    apply_ite (Option.map _), apply_ite Option.isSome]
  simp

/-- Where the keys found fit, they need not make room. -/
theorem Lru.length_others (h : (lru K V ttl maxKeys).Fits maxKeys d now key) :
    (d.others ttl now key).length ≤ maxKeys - 1 := by
  obtain ⟨s, hkey, hs, hcard⟩ := h
  have hnodup : ((d.others ttl now key).map Prod.fst).Nodup :=
    (d.pop key).nodup.sublist (List.filter_sublist.map _)
  have hsub : ((d.others ttl now key).map Prod.fst).toFinset ⊆ s.erase key := by
    intro k hk
    obtain ⟨⟨k, e⟩, he, rfl⟩ := List.mem_map.1 (List.mem_toFinset.1 hk)
    obtain ⟨⟨hne, hmem⟩, hlive⟩ := Lru.mem_others.1 he
    refine Finset.mem_erase.2 ⟨hne, hs k ?_⟩
    rw [lookup_lru, OrderedDict.get?_eq_some_iff.2 hmem, Option.filter_some,
      if_pos (decide_eq_true hlive)]
    rfl
  have := Finset.card_le_card hsub
  rw [List.toFinset_card_of_nodup hnodup, List.length_map, Finset.card_erase_of_mem hkey] at this
  omega

/-- It is a cache with a time to live, -/
def lruTtlCache (K V : Type) [DecidableEq K] (ttl : Time) (maxKeys : ℕ) :
    (lru K V ttl maxKeys).TtlCache ttl maxKeys where
  entry d k := OrderedDict.get? d k
  entry_empty _ := rfl
  lookup_eq _ _ _ := rfl
  entry_access _ _ _ := Lru.get?_access
  entry_assign_self _ _ := Lru.get?_assign
  of_entry_assign hne h :=
    OrderedDict.get?_eq_some_iff.2
      (Lru.mem_others.1 (List.mem_of_mem_take ((Lru.get?_assign_of_ne hne).1 h))).1.2
  entry_assign v hfits hne he hlive := by
    refine (Lru.get?_assign_of_ne hne).2 ?_
    rw [List.take_of_length_le (Lru.length_others hfits)]
    exact Lru.mem_others.2 ⟨⟨hne, OrderedDict.get?_eq_some_iff.1 he⟩, hlive⟩
  entry_mutate_self _ _ _ := Lru.get?_mutate
  entry_mutate _ hne := Lru.get?_mutate_of_ne hne
  entry_delete_self _ _ := OrderedDict.get?_pop
  entry_delete hne := OrderedDict.get?_pop_of_ne hne

/-- and drops the least recently used. -/
def lruEvicts (K V : Type) [DecidableEq K] (ttl : Time) (maxKeys : ℕ) :
    EvictsLru (lruTtlCache K V ttl maxKeys) where
  recent d := List.map Prod.fst (OrderedDict.items d)
  nodup_recent d := OrderedDict.nodup d
  mem_recent _ _ := OrderedDict.mem_keys_iff
  recent_access hk := Lru.keys_access hk
  recent_assign _ _ _ _ := Lru.keys_assign
  entry_assign _ _ _ _ := Lru.get?_assign

end Mapping
