import Pyroflow.HistoryStore
import Pyroflow.Lib.TtlCache

/-!
# How long a record lives

What a store answers whose mapping is a cache with the `ttl` of the store. A record and the
entry of its key then live for the same time, but do not count from the same moment: the
record from when it was created, the entry from when it was assigned, which is when the
key was first used. Pushes to a key in use change the list in place, and do not count.

So a record pushed under a key lives for its `ttl` exactly if the key had no entry when it
was pushed, or one assigned at that moment (`returned_iff`). Else the key expires before the
record does, and takes the record with it.
-/

namespace Pyroflow.MemoryUpdateHistoryStore

variable {K Time : Type} [LinearOrder Time] [Add Time] {M : Histories K Time}

/-! ### What one call does to the entries -/

section Entries

variable {ttl : Time} {maxKeys : ℕ} (c : M.TtlCache ttl maxKeys)
  {m : MemoryUpdateHistoryStore M} {now : Time} {key k : K} {records : List (UpdateRecord Time)}
  {e : Mapping.Entry (Array (UpdateRecord Time)) Time} {b : Bool}

/-- A key may be deleted at the end; the entries under the others stay. -/
theorem entry_delete (h : k ≠ key) :
    c.entry (if b then m.delete now key else m).histories k = c.entry m.histories k := by
  split
  · exact c.entry_pop h
  · rfl

/-- A key may be deleted at the end; no entry is added. -/
theorem of_entry_delete (h : c.entry (if b then m.delete now key else m).histories k = some e) :
    c.entry m.histories k = some e := by
  split at h
  · exact c.of_entry_pop h
  · exact h

variable (m now key records) in
/-- The entry that an update makes for its key, unless the list is empty. -/
def updated : Mapping.Entry (Array (UpdateRecord Time)) Time where
  value := m.trim (m.cleanUp
    (records.foldl Heapq.heappush (c.current m.histories now key #[]).value) now)
  assigned := (c.current m.histories now key #[]).assigned

variable (m now key records) in
/-- The store in an update, before it looks whether the list is empty. -/
def updating : MemoryUpdateHistoryStore M :=
  { m with histories :=
      M.mutate (M.setdefault m.histories now key #[]).2 key (updated c m now key records).value }

theorem update_eq : m.update now key records =
    if (updated c m now key records).value.isEmpty then
      (updating c m now key records).delete now key
    else updating c m now key records := by
  rw [updating, updated, ← c.setdefault_fst]
  rfl

theorem entry_updating_self (hfits : M.Fits maxKeys m.histories now key) :
    c.entry (updating c m now key records).histories key = some (updated c m now key records) := by
  rw [updating, c.entry_mutate_self, c.entry_setdefault_self hfits]
  rfl

/-- The entry under the key of an update is the one it makes. -/
theorem of_entry_update_self (hfits : M.Fits maxKeys m.histories now key)
    (h : c.entry (m.update now key records).histories key = some e) :
    e = updated c m now key records := by
  rw [update_eq c] at h
  have h := of_entry_delete c h
  rw [entry_updating_self c hfits] at h
  exact (Option.some.inj h).symm

theorem entry_update_self (hfits : M.Fits maxKeys m.histories now key)
    (h : (updated c m now key records).value ≠ #[]) :
    c.entry (m.update now key records).histories key = some (updated c m now key records) := by
  rw [update_eq c, if_neg fun h' => h (Array.isEmpty_iff.1 h'), entry_updating_self c hfits]

/-- An update adds no entry under another key. -/
theorem of_entry_update (hne : k ≠ key)
    (h : c.entry (m.update now key records).histories k = some e) :
    c.entry m.histories k = some e := by
  rw [update_eq c] at h
  have h := of_entry_delete c h
  rw [updating, c.entry_mutate _ hne] at h
  exact c.of_entry_setdefault hne h

/-- An update keeps the entries under other keys that have not expired. -/
theorem entry_update (hfits : M.Fits maxKeys m.histories now key) (hne : k ≠ key)
    (he : c.entry m.histories k = some e) (hlive : now < e.assigned + ttl) :
    c.entry (m.update now key records).histories k = some e := by
  rw [update_eq c, entry_delete c hne, updating, c.entry_mutate _ hne]
  exact c.entry_setdefault hfits hne he hlive

variable (m now e) in
/-- An entry with its list cleaned up. -/
def cleaned : Mapping.Entry (Array (UpdateRecord Time)) Time :=
  { e with value := m.cleanUp e.value now }

variable (m now key e) in
/-- The store in a look at a key with this entry, before it looks whether the list is empty. -/
def looking : MemoryUpdateHistoryStore M :=
  { m with histories := M.mutate (M.access m.histories key) key (cleaned m now e).value }

/-- A look at a key whose entry is found cleans up its list. -/
theorem get_of_some (h : M.lookup m.histories now key = some e.value) :
    m.get now key = (sortedRecords (cleaned m now e).value.toList,
      if (cleaned m now e).value.isEmpty then (looking m now key e).delete now key
      else looking m now key e) := by
  rw [get, Mapping.get, h]
  dsimp only
  rw [isEmpty_sortedRecords, Array.isEmpty_toList, Option.isSome_some, if_pos rfl]
  split
  next hc => exact Prod.ext rfl (if_pos hc).symm
  next hc => exact Prod.ext rfl (if_neg hc).symm

/-- A look at a key without one finds nothing. -/
theorem get_of_none (h : M.lookup m.histories now key = none) :
    m.get now key = ([], m.delete now key) := by
  rw [get, Mapping.get, h]
  dsimp only
  rw [cleanUp_empty, Option.isSome_none, if_neg Bool.false_ne_true, sortedRecords,
    List.mergeSort_nil, List.isEmpty_nil, if_pos rfl]

theorem entry_looking_self (he : c.entry m.histories key = some e) :
    c.entry (looking m now key e).histories key = some (cleaned m now e) := by
  rw [looking, c.entry_mutate_self, c.entry_access, he]
  rfl

/-- A look at a key keeps the entries under the others. -/
theorem entry_get (hne : k ≠ key) :
    c.entry (m.get now key).2.histories k = c.entry m.histories k := by
  cases h : M.lookup m.histories now key with
  | none => rw [get_of_none h]; exact c.entry_pop hne
  | some v =>
    obtain ⟨e, he, rfl, hlive⟩ := c.exists_entry h
    rw [get_of_some h, entry_delete c hne, looking, c.entry_mutate _ hne, c.entry_access]

theorem entry_get_self (he : c.entry m.histories key = some e) (hlive : now < e.assigned + ttl)
    (hne : (cleaned m now e).value ≠ #[]) :
    c.entry (m.get now key).2.histories key = some (cleaned m now e) := by
  rw [get_of_some (c.lookup_of_live he hlive), if_neg fun h => hne (Array.isEmpty_iff.1 h),
    entry_looking_self c he]

/-- The entry under a key looked at is one it had, perhaps cleaned up. -/
theorem of_entry_get_self (h : c.entry (m.get now key).2.histories key = some e) :
    ∃ e', c.entry m.histories key = some e' ∧ (e = e' ∨ e = cleaned m now e') := by
  cases hl : M.lookup m.histories now key with
  | none =>
    rw [get_of_none hl] at h
    exact ⟨e, c.of_entry_pop h, .inl rfl⟩
  | some v =>
    obtain ⟨e', he', rfl, hlive⟩ := c.exists_entry hl
    rw [get_of_some hl] at h
    have h := of_entry_delete c h
    rw [entry_looking_self c he'] at h
    exact ⟨e', he', .inr (Option.some.inj h).symm⟩

/-! ### What is known of the entries -/

variable (m now) in
/-- Each entry was assigned at a time not after `now`, and its list is a heap. -/
def Sound : Prop := ∀ k e, c.entry m.histories k = some e →
  Heapq.IsHeap e.value ∧ e.assigned ≤ now

/-- The list an update starts from. -/
theorem Sound.current {t : Time} (hm : Sound c m t) (hnow : now ≤ t) (key : K) :
    Heapq.IsHeap (c.current m.histories now key #[]).value ∧
      (c.current m.histories now key #[]).assigned ≤ t := by
  cases hl : M.lookup m.histories now key with
  | none =>
    rw [c.current_of_expired hl]
    exact ⟨Heapq.isHeap_empty, hnow⟩
  | some v =>
    obtain ⟨e, he, rfl, hlive⟩ := c.exists_entry hl
    rw [c.current_of_live he hlive]
    exact hm key e he

/-- The entry an update starts from holds what is found, and was assigned at this time if
    what is found was. -/
theorem current_eq (h : ∀ e, c.entry m.histories key = some e → now < e.assigned + ttl →
    e.assigned = now) :
    c.current m.histories now key #[] = ⟨(M.lookup m.histories now key).getD #[], now⟩ := by
  cases hl : M.lookup m.histories now key with
  | none => exact c.current_of_expired hl
  | some v =>
    obtain ⟨e, he, rfl, hlive⟩ := c.exists_entry hl
    rw [c.current_of_live he hlive, Option.getD_some, ← h e he hlive]

variable (maxKeys) in
/-- The keys held fit at a call that adds one. -/
def FitsCall (m : MemoryUpdateHistoryStore M) (now : Time) : Call K Time → Prop
  | .update key _ => M.Fits maxKeys m.histories now key
  | .get _ | .pop _ | .delete _ => True

variable (maxKeys) in
/-- The keys held fit all along a run. -/
def FitsRun : MemoryUpdateHistoryStore M → List (Time × Call K Time) → Prop
  | _, [] => True
  | m, (now, call) :: calls => FitsCall maxKeys m now call ∧ FitsRun (m.exec now call) calls

theorem fitsRun_append {calls calls' : List (Time × Call K Time)} :
    FitsRun maxKeys m (calls ++ calls') ↔
      FitsRun maxKeys m calls ∧ FitsRun maxKeys (m.run calls) calls' := by
  induction calls generalizing m with
  | nil => exact (iff_of_eq (true_and _)).symm
  | cons call calls ih =>
    rw [List.cons_append, FitsRun, FitsRun, ih, and_assoc]
    rfl

theorem Sound.exec {t : Time} (hm : Sound c m t) {call : Call K Time}
    (hfits : FitsCall maxKeys m now call) (hnow : now ≤ t) : Sound c (m.exec now call) t := by
  intro k e he
  -- The entry of the key is new, or cleaned up; those of other keys were there.
  by_cases hk : k = call.key
  · subst hk
    cases call with
    | update key records =>
      obtain rfl := of_entry_update_self c hfits he
      obtain ⟨hh, ha⟩ := hm.current c hnow key
      exact ⟨isHeap_trim (isHeap_cleanUp (hh.foldl_heappush records) now), ha⟩
    | get key =>
      obtain ⟨e', he', rfl | rfl⟩ := of_entry_get_self c he
      · exact hm _ _ he'
      · exact ⟨isHeap_cleanUp (hm _ _ he').1 now, (hm _ _ he').2⟩
    | pop key | delete key => exact hm _ _ (c.of_entry_pop he)
  · cases call with
    | update key records => exact hm k e (of_entry_update c hk he)
    | get key =>
      rw [MemoryUpdateHistoryStore.exec, entry_get c (show k ≠ key from hk)] at he
      exact hm k e he
    | pop key | delete key => exact hm _ _ (c.of_entry_pop he)

theorem sound_new {n : ℕ} {t : Time} : Sound c (new M ttl n) t := fun k _ he =>
  absurd ((c.entry_empty k).symm.trans he) (Option.some_ne_none _).symm

theorem Sound.run {t : Time} (hm : Sound c m t) {calls : List (Time × Call K Time)}
    (hfits : FitsRun maxKeys m calls) (ht : ∀ c ∈ calls, c.1 ≤ t) : Sound c (m.run calls) t := by
  induction calls generalizing m with
  | nil => exact hm
  | cons call calls ih =>
    exact ih (hm.exec c hfits.1 (ht call List.mem_cons_self)) hfits.2 fun c' hc' =>
      ht c' (List.mem_cons_of_mem call hc')

/-! ### The record is lost with its key -/

/-- An update of a key in use does not make it last longer. -/
theorem get_eq_nil (he : c.entry m.histories key = some e) (hlive : now < e.assigned + ttl)
    (hfits : M.Fits maxKeys m.histories now key) {t : Time} (ht : ¬ t < e.assigned + ttl) :
    ((m.update now key records).get t key).1 = [] := by
  rw [get_of_none]
  refine c.lookup_of_expired fun e' he' => ?_
  -- The entry that the update makes counts from when the old one was assigned.
  rw [of_entry_update_self c hfits he']
  dsimp only [updated]
  rwa [c.current_of_live he hlive]

/-! ### The record is kept -/

variable [AddRightMono Time] {r : UpdateRecord Time}

/-- The records that are newer than this one. -/
def newer (r : UpdateRecord Time) (l : List (UpdateRecord Time)) : ℕ :=
  l.countP fun r' => decide (r < r')

/-- An update keeps a record that has not expired and is not displaced. -/
theorem mem_updated {heap : Array (UpdateRecord Time)} (hh : Heapq.IsHeap heap)
    (hr : r ∈ heap.toList ++ records) (hnow : now < m.expiresAt r)
    (hn : newer r (heap.toList ++ records) < m.maxHistoryLen) :
    r ∈ (m.trim (m.cleanUp (records.foldl Heapq.heappush heap) now)).toList := by
  -- It is left by the clean-up, and those newer than it leave room for it in the trim.
  refine (updated_perm hh records now).mem_iff.2 (List.mem_greatest ?_ ?_)
  · exact List.mem_filter.2 ⟨hr, decide_eq_true hnow⟩
  · exact (List.filter_sublist.countP_le).trans_lt hn

/-- An update adds no newer records but its own. -/
theorem newer_updated {heap : Array (UpdateRecord Time)} (hh : Heapq.IsHeap heap) :
    newer r (m.trim (m.cleanUp (records.foldl Heapq.heappush heap) now)).toList ≤
      newer r (heap.toList ++ records) := by
  rw [newer, (updated_perm hh records now).countP_eq]
  refine ((List.greatest_sublist _ _).countP_le).trans ?_
  rw [(List.descending_perm _).countP_eq]
  exact List.filter_sublist.countP_le

variable (m key r) in
/-- The key has an entry assigned when the record was created, with the record in it, and
    with no newer ones but those in `l`. -/
def Holds (l : List (UpdateRecord Time)) : Prop := ∃ heap,
  c.entry m.histories key = some ⟨heap, r.createdAt⟩ ∧ Heapq.IsHeap heap ∧ r ∈ heap.toList ∧
    newer r heap.toList ≤ newer r l

variable {l : List (UpdateRecord Time)}

/-- An update of a key whose entry, old or new, was assigned when the record was created. -/
theorem holds_update {heap : Array (UpdateRecord Time)}
    (hcur : c.current m.histories now key #[] = ⟨heap, r.createdAt⟩) (hh : Heapq.IsHeap heap)
    (hfits : M.Fits maxKeys m.histories now key) (hr : r ∈ heap.toList ++ records)
    (hexp : now < m.expiresAt r) (hn : newer r (heap.toList ++ records) < m.maxHistoryLen) :
    Holds c (m.update now key records) key r (heap.toList ++ records) := by
  -- The entry made keeps the moment it was assigned at, and is not empty.
  have hu : updated c m now key records =
      ⟨m.trim (m.cleanUp (records.foldl Heapq.heappush heap) now), r.createdAt⟩ := by
    rw [updated, hcur]
  have hmem := mem_updated hh hr hexp hn
  refine ⟨_, (entry_update_self c hfits ?_).trans (congrArg some hu), ?_, hmem, newer_updated hh⟩
  · rw [hu]
    dsimp only
    intro h
    rw [h] at hmem
    exact absurd hmem List.not_mem_nil
  · exact isHeap_trim (isHeap_cleanUp (hh.foldl_heappush records) now)

/-- A look at a key before the record expires. -/
theorem Holds.get (hm : Holds c m key r l) (hexp : now < m.expiresAt r)
    (hlive : now < r.createdAt + ttl) :
    r ∈ (m.get now key).1 ∧ Holds c (m.get now key).2 key r l := by
  obtain ⟨heap, he, hh, hr, hle⟩ := hm
  have hp := cleanUp_perm (m := m) hh now
  have hmem : r ∈ (m.cleanUp heap now).toList :=
    hp.mem_iff.2 (List.mem_filter.2 ⟨hr, decide_eq_true hexp⟩)
  constructor
  · rw [get_of_some (c.lookup_of_live he hlive)]
    exact (List.mergeSort_perm _ _).mem_iff.2 hmem
  · refine ⟨_, entry_get_self c he hlive fun h => ?_, isHeap_cleanUp hh now, hmem, ?_⟩
    · dsimp only [cleaned] at h
      rw [h] at hmem
      exact absurd hmem List.not_mem_nil
    · rw [newer, hp.countP_eq]
      exact (List.filter_sublist.countP_le).trans hle

variable [DecidableEq K] {call : Call K Time}

omit [Add Time] [AddRightMono Time] in
/-- What is pushed stays until a pop or delete. -/
theorem newer_le_pushedBy (hpop : call ≠ .pop key) (hdel : call ≠ .delete key) :
    newer r l ≤ newer r (pushedBy key l call) := by
  cases call with
  | update k records =>
    rw [pushedBy]
    split
    · exact (List.sublist_append_left l records).countP_le
    · exact le_rfl
  | get => exact le_rfl
  | pop k => rw [pushedBy, if_neg fun h : k = key => hpop (h ▸ rfl)]
  | delete k => rw [pushedBy, if_neg fun h : k = key => hdel (h ▸ rfl)]

/-- A step: a call before the record expires that does not displace it keeps it. -/
theorem Holds.exec (hm : Holds c m key r l) (httl : m.ttl = ttl)
    (hfits : FitsCall maxKeys m now call) (hnow : now < r.createdAt + ttl)
    (hpop : call ≠ .pop key) (hdel : call ≠ .delete key)
    (hn : newer r (pushedBy key l call) < m.maxHistoryLen) :
    Holds c (m.exec now call) key r (pushedBy key l call) := by
  have hexp : now < m.expiresAt r := by rwa [expiresAt, httl]
  -- Only a call for the key of the record touches its entry, and a pop or delete is excluded.
  cases call with
  | update k records =>
    obtain ⟨heap, he, hh, hr, hle⟩ := hm
    by_cases hk : k = key
    · subst hk
      rw [pushedBy, if_pos rfl] at hn ⊢
      have hle : newer r (heap.toList ++ records) ≤ newer r (l ++ records) := by
        rw [newer, newer, List.countP_append, List.countP_append]
        exact Nat.add_le_add_right hle _
      obtain ⟨heap', he', hh', hr', hle'⟩ := holds_update c (c.current_of_live he hnow) hh hfits
        (List.mem_append_left records hr) hexp (hle.trans_lt hn)
      exact ⟨heap', he', hh', hr', hle'.trans hle⟩
    · rw [pushedBy, if_neg hk]
      exact ⟨heap, entry_update c hfits (Ne.symm hk) he hnow, hh, hr, hle⟩
  | get k =>
    by_cases hk : k = key
    · subst hk
      exact (hm.get c hexp hnow).2
    · obtain ⟨heap, he, h⟩ := hm
      exact ⟨heap, (entry_get c (Ne.symm hk)).trans he, h⟩
  | pop k | delete k =>
    have hk : key ≠ k := by
      rintro rfl
      first | exact hpop rfl | exact hdel rfl
    rw [pushedBy, if_neg hk.symm]
    obtain ⟨heap, he, h⟩ := hm
    exact ⟨heap, (c.entry_pop hk).trans he, h⟩

omit [Add Time] [AddRightMono Time] in
theorem newer_le_pushedFrom {calls : List (Time × Call K Time)}
    (hkeep : ∀ c ∈ calls, c.2 ≠ .pop key ∧ c.2 ≠ .delete key) :
    newer r l ≤ newer r (pushedFrom key l calls) := by
  induction calls generalizing l with
  | nil => exact le_rfl
  | cons c calls ih =>
    obtain ⟨hpop, hdel⟩ := hkeep c List.mem_cons_self
    exact (newer_le_pushedBy hpop hdel).trans
      (ih fun c' hc' => hkeep c' (List.mem_cons_of_mem c hc'))

/-- A run: calls before the record expires that do not displace it keep it. -/
theorem Holds.run (hm : Holds c m key r l) (httl : m.ttl = ttl)
    {calls : List (Time × Call K Time)} (hfits : FitsRun maxKeys m calls)
    (hlive : ∀ c ∈ calls, c.1 < r.createdAt + ttl)
    (hkeep : ∀ c ∈ calls, c.2 ≠ .pop key ∧ c.2 ≠ .delete key)
    (hn : newer r (pushedFrom key l calls) < m.maxHistoryLen) :
    Holds c (m.run calls) key r (pushedFrom key l calls) := by
  induction calls generalizing m l with
  | nil => exact hm
  | cons call calls ih =>
    obtain ⟨hpop, hdel⟩ := hkeep call List.mem_cons_self
    have hkeep' : ∀ c ∈ calls, c.2 ≠ .pop key ∧ c.2 ≠ .delete key :=
      fun c' hc' => hkeep c' (List.mem_cons_of_mem call hc')
    obtain ⟨h₁, h₂⟩ := exec_params m call.1 call.2
    refine ih (hm.exec c httl hfits.1 (hlive call List.mem_cons_self) hpop hdel ?_)
      (h₁.trans httl) hfits.2 (fun c' hc' => hlive c' (List.mem_cons_of_mem call hc')) hkeep' ?_
    · exact (newer_le_pushedFrom hkeep').trans_lt hn
    · rw [h₂]
      exact hn

end Entries

/-! ### Which records live for their `ttl` -/

variable [AddRightStrictMono Time] [DecidableEq K] {ttl : Time} {maxHistoryLen maxKeys : ℕ}

/-- The records found under a key. -/
def held (m : MemoryUpdateHistoryStore M) (now : Time) (key : K) : List (UpdateRecord Time) :=
  ((M.lookup m.histories now key).getD #[]).toList

/-- A record lives for its `ttl` exactly if the entry of its key was assigned no earlier than
    it was created. In any run with non-decreasing times whose keys fit, let a record be pushed
    at the time `t₀` it was created, which the newer ones pushed with it or found under the key do
    not displace. Then every `get` before `t₀ + ttl` returns it, after any calls that do not pop or
    delete it, or displace it with newer ones, if and only if the entry that the key
    had when it was pushed, if it had one that had not expired, was assigned at `t₀`. -/
theorem returned_iff (c : M.TtlCache ttl maxKeys) (calls : List (Time × Call K Time)) (t₀ : Time)
    (key : K) (records : List (UpdateRecord Time)) (r : UpdateRecord Time)
    (htimes : (calls.map Prod.fst ++ [t₀]).Pairwise (· ≤ ·))
    (hfits : FitsRun maxKeys (new M ttl maxHistoryLen) (calls ++ [(t₀, .update key records)]))
    (hr : r ∈ records) (hcreated : r.createdAt = t₀)
    (hn : newer r (held ((new M ttl maxHistoryLen).run calls) t₀ key ++ records) < maxHistoryLen) :
    let m := (new M ttl maxHistoryLen).run calls
    (∀ (later : List (Time × Call K Time)) t,
      (t₀ :: later.map Prod.fst ++ [t]).Pairwise (· ≤ ·) → t < t₀ + ttl →
      FitsRun maxKeys (m.update t₀ key records) later →
      (∀ c ∈ later, c.2 ≠ .pop key ∧ c.2 ≠ .delete key) →
      newer r (pushedFrom key (held m t₀ key ++ records) later) < maxHistoryLen →
      r ∈ (((m.update t₀ key records).run later).get t key).1) ↔
    ∀ e, c.entry m.histories key = some e → t₀ < e.assigned + ttl → e.assigned = t₀ := by
  intro m
  have : AddRightMono Time := addRightMono_of_addRightStrictMono Time
  obtain ⟨hfits, hfit, -⟩ := fitsRun_append.1 hfits
  obtain ⟨-, -, hbefore⟩ := List.pairwise_append.1 htimes
  -- No entry was assigned after `t₀`.
  have hm : Sound c m t₀ := (sound_new c).run c hfits fun c hc =>
    hbefore _ (List.mem_map_of_mem hc) _ List.mem_cons_self
  obtain ⟨httl, hlen⟩ := run_params (new M ttl maxHistoryLen) calls
  have hpush : FitsCall maxKeys m t₀ (.update key records) := hfit
  constructor
  · -- The key expires first.
    intro h e he hlive
    by_contra hne
    have hlt : e.assigned < t₀ := lt_of_le_of_ne (hm key e he).2 hne
    have hr := h [] (e.assigned + ttl) (by simpa using hlive.le) (add_lt_add_left hlt ttl) trivial
      (fun _ hc => absurd hc List.not_mem_nil) hn
    rw [run, List.foldl_nil, get_eq_nil c he hlive hpush (lt_irrefl _)] at hr
    exact absurd hr List.not_mem_nil
  · intro h later t htimes ht hfits hkeep hn'
    obtain ⟨-, -, hlater⟩ := List.pairwise_append.1 htimes
    have hle : ∀ t' ∈ t₀ :: later.map Prod.fst, t' < r.createdAt + ttl := fun t' ht' =>
      (hlater t' ht' t List.mem_cons_self).trans_lt (hcreated ▸ ht)
    -- The push starts from an entry assigned at `t₀`, when the record was created.
    have hcur := current_eq c h
    have hheap := (hm.current c le_rfl key).1
    rw [hcur] at hheap
    have hexp : ∀ m' : MemoryUpdateHistoryStore M, m'.ttl = ttl → ∀ t' < r.createdAt + ttl,
      t' < m'.expiresAt r := fun m' h t' ht' => by rwa [expiresAt, h]
    have h₀ : Holds c (m.update t₀ key records) key r (held m t₀ key ++ records) :=
      holds_update c (hcreated.symm ▸ hcur) hheap hpush (List.mem_append_right _ hr)
        (hexp m httl t₀ (hle t₀ List.mem_cons_self)) (hlen.symm ▸ hn)
    obtain ⟨httl', hlen'⟩ := exec_params m t₀ (.update key records)
    have h₁ := h₀.run c (httl'.trans httl) hfits
      (fun c hc => hle _ (List.mem_cons_of_mem _ (List.mem_map_of_mem hc))) hkeep
      ((hlen'.trans hlen).symm ▸ hn')
    obtain ⟨httl'', -⟩ := run_params (m.exec t₀ (.update key records)) later
    have ht' : t < r.createdAt + ttl := hcreated ▸ ht
    exact (h₁.get c (hexp _ (httl''.trans (httl'.trans httl)) t ht') ht').1

/-- A single key fits. -/
theorem fits_unit {V : Type} {M : Mapping Unit V ℕ} {d : M.Dict} {now : ℕ} : M.Fits 1 d now () :=
  ⟨{()}, Finset.mem_singleton_self (), fun _ _ => Finset.mem_singleton_self (), le_rfl⟩

/-- A record pushed to a new key, and another pushed to the key at the same time. -/
theorem returned_iff_new :
    (⟨5, 0⟩ : UpdateRecord ℕ) ∈
      (((new (Mapping.lru Unit _ 10 1) 10 2).update 5 () [⟨5, 0⟩]).get 14 ()).1 ∧
    (⟨5, 1⟩ : UpdateRecord ℕ) ∈ ((((new (Mapping.lru Unit _ 10 1) 10 2).run
      [(5, .update () [⟨5, 0⟩])]).update 5 () [⟨5, 1⟩]).get 14 ()).1 := by
  constructor
  · refine (returned_iff (Mapping.lruTtlCache Unit _ 10 1) [] 5 () [⟨5, 0⟩] ⟨5, 0⟩ (by decide)
      ⟨fits_unit, trivial⟩ List.mem_cons_self rfl (by decide)).2 ?_ [] 14 (by decide) (by decide)
      trivial (fun _ hc => absurd hc List.not_mem_nil) (by decide)
    exact fun e he _ => absurd he (Option.some_ne_none e).symm
  · let c := Mapping.lruTtlCache Unit (Array (UpdateRecord ℕ)) (10 : ℕ) 1
    let m : MemoryUpdateHistoryStore (Mapping.lru Unit (Array (UpdateRecord ℕ)) 10 1) :=
      new _ 10 2
    -- The entry was assigned at 5 too, and holds nothing newer.
    obtain ⟨heap, he, -, -, hle⟩ : Holds c (m.update 5 () [⟨5, 0⟩]) () ⟨5, 0⟩ [⟨5, 0⟩] :=
      holds_update c (show c.current m.histories 5 () #[] = ⟨#[], 5⟩ from rfl)
        Heapq.isHeap_empty fits_unit List.mem_cons_self (by decide) (by decide)
    have hheld : held (m.update 5 () [⟨5, 0⟩]) 5 () = heap.toList := by
      rw [held, c.lookup_of_live he (show 5 < 5 + 10 by decide), Option.getD_some]
    have hnewer : newer ⟨5, 1⟩ (held (m.update 5 () [⟨5, 0⟩]) 5 () ++ [⟨5, 1⟩]) < 2 := by
      have hmono : newer ⟨5, 1⟩ heap.toList ≤ newer ⟨5, 0⟩ heap.toList :=
        List.countP_mono_left fun r _ hr => decide_eq_true <|
          lt_trans (show (⟨5, 0⟩ : UpdateRecord ℕ) < ⟨5, 1⟩ by decide) (of_decide_eq_true hr)
      have hzero : newer (⟨5, 0⟩ : UpdateRecord ℕ) [⟨5, 0⟩] = 0 := by decide
      have hone : newer (⟨5, 1⟩ : UpdateRecord ℕ) [⟨5, 1⟩] = 0 := by decide
      have happend : newer ⟨5, 1⟩ (heap.toList ++ [⟨5, 1⟩]) =
          newer ⟨5, 1⟩ heap.toList + newer ⟨5, 1⟩ [⟨5, 1⟩] := List.countP_append
      rw [hheld, happend]
      omega
    refine (returned_iff c [(5, .update () [⟨5, 0⟩])] 5 () [⟨5, 1⟩] ⟨5, 1⟩ (by decide)
      ⟨fits_unit, fits_unit, trivial⟩ List.mem_cons_self rfl hnewer).2 ?_ [] 14 (by decide)
      (by decide) trivial (fun _ hc => absurd hc List.not_mem_nil) hnewer
    intro e he' _
    obtain rfl : _ = e := Option.some.inj (he.symm.trans he')
    rfl

/-- A key is first used at 0, and a record pushed to it at 5, the newest of two. The key
    expires at 10, so the record is not found at 12, though it would live until 15. -/
theorem not_returned_of_push :
    let push₁ : ℕ × Call Unit ℕ := (0, .update () [⟨0, 0⟩])
    let push₂ : ℕ × Call Unit ℕ := (5, .update () [⟨5, 1⟩])
    FitsRun 1 (new (Mapping.lru Unit _ 10 1) 10 2) [push₁, push₂] ∧
      newer (⟨5, 1⟩ : UpdateRecord ℕ) [⟨0, 0⟩, ⟨5, 1⟩] < 2 ∧ 5 ≤ 12 ∧ 12 < 5 + 10 ∧
      (((new (Mapping.lru Unit _ 10 1) 10 2).run [push₁, push₂]).get 12 ()).1 = [] := by
  refine ⟨⟨fits_unit, fits_unit, trivial⟩, by decide, by decide, by decide, ?_⟩
  let m : MemoryUpdateHistoryStore (Mapping.lru Unit (Array (UpdateRecord ℕ)) 10 1) :=
    new _ 10 2
  let c := Mapping.lruTtlCache Unit (Array (UpdateRecord ℕ)) (10 : ℕ) 1
  obtain ⟨heap, he, -⟩ : Holds c (m.update 0 () [⟨0, 0⟩]) () ⟨0, 0⟩ [⟨0, 0⟩] :=
    holds_update c (show c.current m.histories 0 () #[] = ⟨#[], 0⟩ from rfl) Heapq.isHeap_empty
      fits_unit List.mem_cons_self (by decide) (by decide)
  exact get_eq_nil c he (show 5 < 0 + 10 by decide) fits_unit (show ¬ 12 < 0 + 10 by decide)

end Pyroflow.MemoryUpdateHistoryStore
