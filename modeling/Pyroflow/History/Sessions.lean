import Pyroflow.Dispatcher.Propagation
import Pyroflow.History
import Pyroflow.HistoryStore.Expiry

/-!
# What a history remembers

The records under a key are kept in a heap, which is an entry of a cache, and both drop things
at times of their own. What a reader gets can be told without them (`history_sessions`): the
history of a key is a series of sessions. A session begins when something is recorded and
none goes on, and it ends `ttl` later, or with a `pop` or `clear`. A reader gets the last
`maxHistoryLen` of the handlers recorded in the session that goes on, in the order they were
recorded.

So a heap is a queue here: records are created in the order of the times at which they are
recorded, so the oldest of them, which a heap drops first, is the first in line.
-/

namespace Pyroflow

open Dispatcher MemoryUpdateHistoryStore

variable {Update K Data H Time : Type}

/-! ### Sessions -/

/-- When a session began, and what has been recorded in it. -/
structure Session (H Data Time : Type) where
  start : Time
  log : List (Recorded H Data Time)

namespace Session

variable [LinearOrder Time] [Add Time] (ttl now : Time)

/-- A session, unless it has ended. -/
def current (session : Option (Session H Data Time)) : Option (Session H Data Time) :=
  session.filter fun S => now < S.start + ttl

/-- Handlers are recorded, in the session that goes on, or else in a new one. -/
def push (items : List (H × Data)) (session : Option (Session H Data Time)) :
    Option (Session H Data Time) :=
  let log := items.map fun (handler, data) => ⟨handler, data, now⟩
  match current ttl now session with
  | some S => some { S with log := S.log ++ log }
  | none => if items.isEmpty then none else some ⟨now, log⟩

/-- What an operation makes of the session of a key. -/
def after [DecidableEq K] (key : K) (session : Option (Session H Data Time)) :
    RecordOperation K H Data → Option (Session H Data Time)
  | .push k items => if k = key then push ttl now items session else session
  | .pop k | .delete k => if k = key then none else session
  | .get _ | .create _ => session

/-- The last records of the session that goes on, at most `maxHistoryLen`. -/
def answer (maxHistoryLen : ℕ) (session : Option (Session H Data Time)) :
    List (Recorded H Data Time) :=
  match current ttl now session with
  | some S => S.log.drop (S.log.length - maxHistoryLen)
  | none => []

theorem current_of_live {S : Session H Data Time} (hlive : now < S.start + ttl) :
    current ttl now (some S) = some S := by
  rw [current, Option.filter_some, if_pos (decide_eq_true hlive)]

theorem current_of_ended {session : Option (Session H Data Time)}
    (hended : ∀ S, session = some S → ¬now < S.start + ttl) : current ttl now session = none := by
  cases session with
  | none => rfl
  | some S => rw [current, Option.filter_some, if_neg (by simpa using hended S rfl)]

theorem push_of_live {S : Session H Data Time} (hlive : now < S.start + ttl)
    (items : List (H × Data)) : push ttl now items (some S) =
      some { S with log := S.log ++ items.map fun (handler, data) => ⟨handler, data, now⟩ } := by
  rw [push, current_of_live ttl now hlive]

end Session

/-! ### The records in a heap -/

namespace MemoryUpdateHistoryStore

variable [LinearOrder Time] [Add Time] [AddRightMono Time] {M : Histories K Time} {ttl : Time}
  {maxKeys : ℕ} (c : M.TtlCache ttl maxKeys) {m : MemoryUpdateHistoryStore M} {now : Time} {key : K}
  {records rs : List (UpdateRecord Time)}
  {e : Mapping.Entry (Array (UpdateRecord Time)) Time}

omit [Add Time] [AddRightMono Time] in
/-- The records in a heap are the last of these. -/
theorem sortedRecords_eq {heap : Array (UpdateRecord Time)} {l : List (UpdateRecord Time)}
    (hperm : heap.toList.Perm l) (hl : l.Pairwise (· ≤ ·)) : sortedRecords heap.toList = l := by
  rw [sortedRecords_congr hperm, sortedRecords]
  exact List.mergeSort_of_pairwise (hl.imp fun h => decide_eq_true h)

/-- Records in order are pushed to a heap with the last of those before them: it then has the last
    of all, when none of them has expired. -/
theorem updated_perm_drop (hheap : Heapq.IsHeap (c.current m.histories now key #[]).value)
    (hperm : (c.current m.histories now key #[]).value.toList.Perm
      (rs.drop (rs.length - m.maxHistoryLen)))
    (hrs : (rs ++ records).Pairwise (· < ·)) (hlive : ∀ r ∈ rs ++ records, now < m.expiresAt r) :
    (updated c m now key records).value.toList.Perm
      ((rs ++ records).drop ((rs ++ records).length - m.maxHistoryLen)) := by
  have hle {l : List (UpdateRecord Time)} (h : l.Pairwise (· < ·)) : l.Pairwise (· ≤ ·) :=
    h.imp fun h => h.le
  have hlast : (c.current m.histories now key #[]).value.toList.Perm
      (rs.greatest m.maxHistoryLen) := by
    rw [List.greatest_eq_reverse_drop (hle (List.pairwise_append.1 hrs).1)]
    exact hperm.trans (List.reverse_perm _).symm
  refine (updated_perm hheap records now).trans ?_
  -- Nothing has expired.
  rw [List.filter_eq_self.2 fun r hr => decide_eq_true (hlive r ?_)]
  · rw [(hlast.append_right records).greatest_eq, List.greatest_greatest_append,
      List.greatest_eq_reverse_drop (hle hrs)]
    exact List.reverse_perm _
  · rcases List.mem_append.1 hr with hr | hr
    · exact List.mem_append_left _ (List.mem_of_mem_drop (hperm.mem_iff.1 hr))
    · exact List.mem_append_right _ hr

omit [AddRightMono Time] in
/-- A pop returns what a look would. -/
theorem pop_fst_eq_get (m : MemoryUpdateHistoryStore M) (now : Time) (key : K) :
    (m.pop now key).1 = (m.get now key).1 := by
  rw [MemoryUpdateHistoryStore.pop, MemoryUpdateHistoryStore.get, Mapping.pop, Mapping.get]
  cases M.lookup m.histories now key with
  | none =>
    dsimp only
    split <;> rfl
  | some heap =>
    dsimp only
    split <;> rfl

omit [AddRightMono Time] in
/-- A pop leaves no entry that is found. -/
theorem not_live_of_entry_pop {default : Array (UpdateRecord Time)} {d : M.Dict}
    (he : c.entry (M.pop d now key default).2 key = some e) : ¬now < e.assigned + ttl := by
  intro hlive
  rw [Mapping.pop] at he
  split at he
  case h_1 =>
    rw [c.entry_delete_self] at he
    cases he
  case h_2 hnone => cases hnone.symm.trans (c.lookup_of_live he hlive)

omit [AddRightMono Time] in
/-- An update that leaves nothing deletes its key. -/
theorem not_live_of_updated_empty (hempty : (updated c m now key records).value = #[])
    (he : c.entry (m.update now key records).histories key = some e) :
    ¬now < e.assigned + ttl := by
  rw [update_eq c, if_pos (by rw [hempty]; rfl)] at he
  exact not_live_of_entry_pop c he

end MemoryUpdateHistoryStore

/-! ### The entry of a key and its session -/

namespace HistoryMemory

variable [LinearOrder Time] [Add Time] {M : Histories K Time} {ttl : Time} {maxKeys : ℕ}
  {s : HistoryMemory M H Data} {now t : Time} {key k : K} {S : Session H Data Time}
  {items : List (H × Data)} {heap : Array (UpdateRecord Time)} {rs : List (UpdateRecord Time)}

omit [Add Time] in
variable (s now S rs) in
/-- The records of a session, in order. -/
structure Lists : Prop where
  ordered : rs.Pairwise (· < ·)
  created : ∀ r ∈ rs, r.seq < s.objects.length ∧ S.start ≤ r.createdAt ∧ r.createdAt ≤ now
  read : rs.map s.read = S.log.map some
  nonempty : rs ≠ []

variable (s now S heap) in
/-- The heap holds the last records of the session. -/
def Keeps : Prop := ∃ rs, s.Lists now S rs ∧
  heap.toList.Perm (rs.drop (rs.length - s.store.maxHistoryLen))

variable (s now key) in
/-- The entry of a key is the one of its session: when the session goes on, the entry is found, and
    holds its last records. -/
structure Tracks (c : M.TtlCache ttl maxKeys) (session : Option (Session H Data Time)) : Prop where
  sound : Sound c s.store now
  ttl_eq : s.store.ttl = ttl
  of_live : ∀ e, c.entry s.store.histories key = some e → now < e.assigned + ttl →
    ∃ S, session = some S ∧ S.start = e.assigned ∧ s.Keeps now S e.value
  live : 0 < s.store.maxHistoryLen → ∀ S, session = some S → now < S.start + ttl →
    ∃ e, c.entry s.store.histories key = some e ∧ e.assigned = S.start

omit [Add Time] in
theorem Lists.mono (h : s.Lists now S rs) (hle : now ≤ t) : s.Lists t S rs where
  ordered := h.ordered
  created r hr := ⟨(h.created r hr).1, (h.created r hr).2.1, (h.created r hr).2.2.trans hle⟩
  read := h.read
  nonempty := h.nonempty

theorem Tracks.mono {c : M.TtlCache ttl maxKeys} {session : Option (Session H Data Time)}
    (h : s.Tracks now key c session) (hle : now ≤ t) : s.Tracks t key c session where
  sound k e he := ⟨(h.sound k e he).1, (h.sound k e he).2.trans hle⟩
  ttl_eq := h.ttl_eq
  of_live e he hlive := by
    obtain ⟨S, hS, hstart, rs, hrs, hperm⟩ := h.of_live e he (hle.trans_lt hlive)
    exact ⟨S, hS, hstart, rs, hrs.mono hle, hperm⟩
  live hpos S hS hlive := h.live hpos S hS (hle.trans_lt hlive)

omit [Add Time] [LinearOrder Time] in
/-- Records that are created later do not change what those there are hold. -/
theorem read_of_prefix {s' : HistoryMemory M H Data} (hs' : s.objects <+: s'.objects)
    {r : UpdateRecord Time} (hr : r.seq < s.objects.length) : s'.read r = s.read r := by
  obtain ⟨items, hitems⟩ := hs'
  rw [HistoryMemory.read, ← hitems, List.getElem?_append_left hr, HistoryMemory.read]

omit [Add Time] in
theorem Lists.of_prefix {s' : HistoryMemory M H Data} (h : s.Lists now S rs)
    (hs' : s.objects <+: s'.objects) : s'.Lists now S rs where
  ordered := h.ordered
  created r hr := ⟨(h.created r hr).1.trans_le hs'.length_le, (h.created r hr).2⟩
  read := (List.map_congr_left fun r hr => read_of_prefix hs' (h.created r hr).1).trans h.read
  nonempty := h.nonempty

/-! ### The records of a push -/

omit [LinearOrder Time] [Add Time] in
theorem mem_created {r : UpdateRecord Time} (hr : r ∈ s.created now items) :
    r.createdAt = now ∧ s.objects.length ≤ r.seq ∧ r.seq < s.objects.length + items.length := by
  obtain ⟨seq, hseq, rfl⟩ := List.mem_map.1 hr
  exact ⟨rfl, List.mem_range'_1.1 hseq⟩

omit [Add Time] in
theorem pairwise_created : (s.created now items).Pairwise (· < ·) := by
  refine List.pairwise_map.2 (List.Pairwise.imp ?_ (List.pairwise_lt_range' ..))
  exact fun h => UpdateRecord.lt_iff.2 (.inr ⟨rfl, h⟩)

omit [LinearOrder Time] [Add Time] in
/-- What the records of a push hold. -/
theorem read_created {store : MemoryUpdateHistoryStore M} :
    (s.created now items).map (HistoryMemory.read ⟨store, s.objects ++ items⟩) =
      (items.map fun (handler, data) => (⟨handler, data, now⟩ : Recorded H Data Time)).map some := by
  refine List.ext_getElem (by simp [HistoryMemory.created]) fun i hi hi' => ?_
  simp only [List.length_map] at hi'
  simp [HistoryMemory.created, HistoryMemory.read, hi']

omit [Add Time] in
/-- A session goes on with what is pushed. -/
theorem Lists.push {store : MemoryUpdateHistoryStore M} (h : s.Lists now S rs)
    (hstart : S.start ≤ now) :
    HistoryMemory.Lists ⟨store, s.objects ++ items⟩ now
      { S with log := S.log ++ items.map fun (handler, data) => ⟨handler, data, now⟩ }
      (rs ++ s.created now items) where
  ordered := by
    refine List.pairwise_append.2 ⟨h.ordered, pairwise_created, fun r hr r' hr' => ?_⟩
    obtain ⟨hseq, -, hle⟩ := h.created r hr
    obtain ⟨rfl, hseq', -⟩ := mem_created hr'
    refine UpdateRecord.lt_iff.2 (hle.lt_or_eq.imp_right fun heq => ⟨heq, ?_⟩)
    exact hseq.trans_le hseq'
  created r hr := by
    rw [List.length_append]
    rcases List.mem_append.1 hr with hr | hr
    · obtain ⟨hseq, hcreated⟩ := h.created r hr
      exact ⟨hseq.trans_le (Nat.le_add_right _ _), hcreated⟩
    · obtain ⟨rfl, -, hseq⟩ := mem_created hr
      exact ⟨hseq, hstart, le_rfl⟩
  read := by
    rw [List.map_append, List.map_append, read_created,
      List.map_congr_left fun r hr => read_of_prefix (List.prefix_append _ _) (h.created r hr).1,
      h.read]
  nonempty hnil := h.nonempty (List.append_eq_nil_iff.1 hnil).1

omit [Add Time] in
/-- A session begins with what is pushed. -/
theorem lists_created {store : MemoryUpdateHistoryStore M} (hne : items ≠ []) :
    HistoryMemory.Lists ⟨store, s.objects ++ items⟩ now
      ⟨now, items.map fun (handler, data) => ⟨handler, data, now⟩⟩ (s.created now items) where
  ordered := pairwise_created
  created r hr := by
    obtain ⟨rfl, -, hseq⟩ := mem_created hr
    exact ⟨List.length_append ▸ hseq, le_rfl, le_rfl⟩
  read := read_created
  nonempty hnil := by
    rw [HistoryMemory.created, List.map_eq_nil_iff, List.range'_eq_nil_iff,
      List.length_eq_zero_iff] at hnil
    exact hne hnil

/-! ### The operations -/

variable {c : M.TtlCache ttl maxKeys} {session : Option (Session H Data Time)}

theorem Tracks.sound_update (h : s.Tracks now key c session) {records : List (UpdateRecord Time)}
    (hfits : M.Fits maxKeys s.store.histories now k) :
    Sound c (s.store.update now k records) now :=
  h.sound.exec c (show FitsCall maxKeys s.store now (.update k records) from hfits) le_rfl

/-- The session of a key goes on, or begins, with an update that leaves its last records. -/
theorem Tracks.of_updated {S' : Session H Data Time} (h : s.Tracks now key c session)
    (hfits : M.Fits maxKeys s.store.histories now key)
    (hlists : HistoryMemory.Lists (s.apply now (.push key items)) now S' rs)
    (hstart : S'.start = (c.current s.store.histories now key #[]).assigned)
    (hperm : now < S'.start + ttl →
      (updated c s.store now key (s.created now items)).value.toList.Perm
        (rs.drop (rs.length - s.store.maxHistoryLen))) :
    (s.apply now (.push key items)).Tracks now key c (some S') := by
  obtain ⟨httl, hlen⟩ := exec_params s.store now (.update key (s.created now items))
  refine ⟨h.sound_update hfits, httl.trans h.ttl_eq, ?_, ?_⟩
  · intro e he hlive
    obtain rfl := of_entry_update_self c hfits he
    exact ⟨S', rfl, hstart, rs, hlists, hlen.symm ▸ hperm (hstart ▸ hlive)⟩
  · intro hpos S hS hlive
    obtain rfl := Option.some.inj hS
    refine ⟨_, entry_update_self c hfits fun hempty => ?_, hstart.symm⟩
    have hpos : 0 < s.store.maxHistoryLen := hlen ▸ hpos
    have hlength := (hperm hlive).length_eq
    have hrs := List.length_pos_of_ne_nil hlists.nonempty
    rw [hempty, List.length_drop] at hlength
    exact absurd hlength (by simp; omega)

/-- An update that leaves nothing ends what is found under its key. -/
theorem Tracks.of_updated_empty {session' : Option (Session H Data Time)}
    (h : s.Tracks now key c session) (hfits : M.Fits maxKeys s.store.histories now key)
    (hempty : (updated c s.store now key (s.created now items)).value = #[])
    (hnone : 0 < s.store.maxHistoryLen → session' = none) :
    (s.apply now (.push key items)).Tracks now key c session' := by
  obtain ⟨httl, hlen⟩ := exec_params s.store now (.update key (s.created now items))
  refine ⟨h.sound_update hfits, httl.trans h.ttl_eq, ?_, ?_⟩
  · exact fun e he hlive => (not_live_of_updated_empty c hempty he hlive).elim
  · intro hpos S hS
    rw [hnone (hlen ▸ hpos)] at hS
    cases hS

/-- When nothing is found under a key, no session goes on. -/
theorem Tracks.current_eq_none (h : s.Tracks now key c session)
    (hlookup : M.lookup s.store.histories now key = none) (hpos : 0 < s.store.maxHistoryLen) :
    Session.current ttl now session = none := by
  refine Session.current_of_ended ttl now fun S hS hlive => ?_
  obtain ⟨e, he, hstart⟩ := h.live hpos S hS hlive
  exact nomatch hlookup.symm.trans (c.lookup_of_live he (hstart ▸ hlive))

/-- The records of a session that goes on have not expired. -/
theorem Tracks.lt_expiresAt [AddRightMono Time] {r : UpdateRecord Time} {start : Time}
    (h : s.Tracks now key c session) (hlive : now < start + ttl) (hr : start ≤ r.createdAt) :
    now < s.store.expiresAt r := by
  rw [expiresAt, h.ttl_eq]
  exact hlive.trans_le (add_le_add_left hr ttl)

theorem Tracks.push [AddRightMono Time] (h : s.Tracks now key c session)
    (hfits : M.Fits maxKeys s.store.histories now key) :
    (s.apply now (.push key items)).Tracks now key c (Session.push ttl now items session) := by
  have hheap := (h.sound.current c le_rfl key).1
  cases hl : M.lookup s.store.histories now key with
  | some v =>
    -- The session goes on, with the records in the entry.
    obtain ⟨e, he, rfl, hlive⟩ := c.exists_entry hl
    have hcur : c.current s.store.histories now key #[] = e := c.current_of_live he hlive
    obtain ⟨S, rfl, hstart, rs, hrs, hperm⟩ := h.of_live e he hlive
    have hlists : Lists (s.apply now (.push key items)) now _ (rs ++ s.created now items) :=
      hrs.push (hstart ▸ (h.sound key e he).2)
    have hliveS : now < S.start + ttl := hstart ▸ hlive
    rw [Session.push_of_live ttl now hliveS]
    have hassigned := hstart.trans (congrArg Mapping.Entry.assigned hcur.symm)
    refine h.of_updated hfits hlists hassigned fun _ => ?_
    refine updated_perm_drop c hheap (hcur ▸ hperm) hlists.ordered fun r hr => ?_
    exact h.lt_expiresAt hliveS (hlists.created r hr).2.1
  | none =>
    have hcur : c.current s.store.histories now key #[] = ⟨#[], now⟩ := c.current_of_expired hl
    have hnil : (c.current s.store.histories now key #[]).value.toList.Perm
        (([] : List (UpdateRecord Time)).drop
          (([] : List (UpdateRecord Time)).length - s.store.maxHistoryLen)) := by
      rw [hcur, List.drop_nil]
    rcases Nat.eq_zero_or_pos s.store.maxHistoryLen with hmax | hpos
    · -- Nothing is ever kept.
      refine h.of_updated_empty hfits (Array.eq_empty_of_size_eq_zero ?_) fun hpos => ?_
      · exact Nat.le_zero.1 ((size_trim_le _).trans_eq hmax)
      · exact absurd hmax hpos.ne'
    · rw [Session.push, h.current_eq_none hl hpos]
      cases items with
      | nil =>
        have hperm := updated_perm_drop c hheap hnil .nil fun r hr => nomatch hr
        rw [List.append_nil, List.drop_nil] at hperm
        exact h.of_updated_empty hfits (Array.toList_eq_nil_iff.1 hperm.eq_nil) fun _ => rfl
      | cons item items =>
        have hlists : Lists (s.apply now (.push key (item :: items))) now _
            (s.created now (item :: items)) := lists_created (List.cons_ne_nil item items)
        refine h.of_updated hfits hlists (congrArg Mapping.Entry.assigned hcur.symm) fun hlive => ?_
        refine updated_perm_drop c hheap hnil hlists.ordered fun r hr => ?_
        exact h.lt_expiresAt hlive (hlists.created r hr).2.1

/-- The entry of the key may be cleaned up, and else stays as it was. -/
theorem Tracks.frame {s' : HistoryMemory M H Data} (h : s.Tracks now key c session)
    (hsound : Sound c s'.store now) (hobjects : s.objects <+: s'.objects)
    (hparams : s'.store.ttl = s.store.ttl ∧ s'.store.maxHistoryLen = s.store.maxHistoryLen)
    (hof : ∀ e, c.entry s'.store.histories key = some e → now < e.assigned + ttl →
      ∃ e', c.entry s.store.histories key = some e' ∧ e'.assigned = e.assigned ∧
        e.value.toList.Perm e'.value.toList)
    (hlive : ∀ e, c.entry s.store.histories key = some e → now < e.assigned + ttl →
      0 < s.store.maxHistoryLen →
      ∃ e', c.entry s'.store.histories key = some e' ∧ e'.assigned = e.assigned) :
    s'.Tracks now key c session where
  sound := hsound
  ttl_eq := hparams.1.trans h.ttl_eq
  of_live e he hl := by
    obtain ⟨e', he', hassigned, hperm⟩ := hof e he hl
    obtain ⟨S, hS, hstart, rs, hrs, hperm'⟩ := h.of_live e' he' (hassigned ▸ hl)
    exact ⟨S, hS, hstart.trans hassigned, rs, hrs.of_prefix hobjects,
      hparams.2 ▸ hperm.trans hperm'⟩
  live hpos S hS hl := by
    have hpos : 0 < s.store.maxHistoryLen := hparams.2 ▸ hpos
    obtain ⟨e, he, hstart⟩ := h.live hpos S hS hl
    obtain ⟨e', he', hassigned⟩ := hlive e he (hstart ▸ hl) hpos
    exact ⟨e', he', hassigned.trans hstart⟩

/-- What the entry that is found holds has not expired, and is something. -/
theorem Tracks.cleaned [AddRightMono Time] {e : Mapping.Entry (Array (UpdateRecord Time)) Time}
    (h : s.Tracks now key c session) (he : c.entry s.store.histories key = some e)
    (hlive : now < e.assigned + ttl) :
    (cleaned s.store now e).value.toList.Perm e.value.toList ∧
      (0 < s.store.maxHistoryLen → (cleaned s.store now e).value ≠ #[]) := by
  obtain ⟨S, rfl, hstart, rs, hrs, hperm⟩ := h.of_live e he hlive
  have hclean := cleanUp_perm (m := s.store) (h.sound key e he).1 now
  rw [List.filter_eq_self.2 fun r hr => decide_eq_true ?_] at hclean
  · refine ⟨hclean, fun hpos hempty => ?_⟩
    have hlength := (hclean.trans hperm).length_eq
    have hpos' := List.length_pos_of_ne_nil hrs.nonempty
    have hempty : s.store.cleanUp e.value now = #[] := hempty
    rw [hempty, List.length_drop] at hlength
    exact absurd hlength (by simp; omega)
  · have hr := List.mem_of_mem_drop (hperm.mem_iff.1 hr)
    exact h.lt_expiresAt hlive (hstart ▸ (hrs.created r hr).2.1)

theorem Tracks.get [AddRightMono Time] (h : s.Tracks now key c session) (k : K) :
    (s.apply now (.get k)).Tracks now key c session := by
  have hsound := h.sound.exec c (show FitsCall maxKeys s.store now (.get k) from trivial) le_rfl
  have hparams := exec_params s.store now (.get k)
  by_cases hk : key = k
  · subst hk
    refine h.frame hsound List.prefix_rfl hparams (fun e he hlive => ?_) fun e he hlive hpos => ?_
    · obtain ⟨e', he', rfl | rfl⟩ := of_entry_get_self c he
      · exact ⟨e, he', rfl, .refl _⟩
      · exact ⟨e', he', rfl, (h.cleaned he' hlive).1⟩
    · exact ⟨_, entry_get_self c he hlive ((h.cleaned he hlive).2 hpos), rfl⟩
  · have hentry : c.entry (s.store.get now k).2.histories key = c.entry s.store.histories key :=
      entry_get c hk
    refine h.frame hsound List.prefix_rfl hparams (fun e he _ => ?_) fun e he _ _ => ?_
    · exact ⟨e, hentry.symm.trans he, rfl, .refl _⟩
    · exact ⟨e, hentry.trans he, rfl⟩

/-- A push to another key. -/
theorem Tracks.push_of_ne (h : s.Tracks now key c session) (hne : key ≠ k)
    (hfits : M.Fits maxKeys s.store.histories now k) :
    (s.apply now (.push k items)).Tracks now key c session := by
  refine h.frame (h.sound_update hfits) (List.prefix_append _ _)
    (exec_params s.store now (.update k _)) (fun e he _ => ?_) fun e he hlive _ => ?_
  · exact ⟨e, of_entry_update c hne he, rfl, .refl _⟩
  · exact ⟨e, entry_update c hfits hne he hlive, rfl⟩

variable [DecidableEq K]

/-- A `pop` or `clear` of a key ends its session. -/
theorem Tracks.popped {default : Array (UpdateRecord Time)} (h : s.Tracks now key c session)
    (k : K) : HistoryMemory.Tracks
      { s with store.histories := (M.pop s.store.histories now k default).2 } now key c
      (if k = key then none else session) := by
  have hsound : Sound c { s.store with histories := (M.pop s.store.histories now k default).2 } now :=
    fun k e he => h.sound k e (c.of_entry_pop he)
  split
  case isTrue hk =>
    subst hk
    exact ⟨hsound, h.ttl_eq, fun e he hlive => (not_live_of_entry_pop c he hlive).elim,
      fun _ _ hS => nomatch hS⟩
  case isFalse hk =>
    have hentry : c.entry (M.pop s.store.histories now k default).2 key =
        c.entry s.store.histories key := c.entry_pop (Ne.symm hk)
    exact h.frame hsound List.prefix_rfl ⟨rfl, rfl⟩
      (fun e he _ => ⟨e, hentry.symm.trans he, rfl, .refl _⟩)
      fun e he _ _ => ⟨e, hentry.trans he, rfl⟩

/-- An operation: the session of the key changes as told. -/
theorem Tracks.apply [AddRightMono Time] (h : s.Tracks now key c session)
    (operation : RecordOperation K H Data)
    (hfits : ∀ k items, operation = .push k items → M.Fits maxKeys s.store.histories now k) :
    (s.apply now operation).Tracks now key c (Session.after ttl now key session operation) := by
  cases operation with
  | push k items =>
    rw [Session.after]
    split
    case isTrue hk => exact hk ▸ h.push (hk ▸ hfits k items rfl)
    case isFalse hk => exact h.push_of_ne (Ne.symm hk) (hfits k items rfl)
  | get k => exact h.get k
  | pop k => exact h.popped k
  | delete k => exact h.popped k
  | create items =>
    exact h.frame h.sound (List.prefix_append _ _) ⟨rfl, rfl⟩
      (fun e he _ => ⟨e, he, rfl, .refl _⟩) fun e he _ _ => ⟨e, he, rfl⟩

omit [DecidableEq K] in
/-- What a reader gets. -/
theorem Tracks.answer [AddRightMono Time] (h : s.Tracks now key c session) :
    (s.store.get now key).1.map s.read =
      (Session.answer ttl now s.store.maxHistoryLen session).map some := by
  cases hl : M.lookup s.store.histories now key with
  | some v =>
    obtain ⟨e, he, rfl, hlive⟩ := c.exists_entry hl
    obtain ⟨S, rfl, hstart, rs, hrs, hperm⟩ := h.of_live e he hlive
    have hsorted : (rs.drop (rs.length - s.store.maxHistoryLen)).Pairwise (· ≤ ·) :=
      (hrs.ordered.imp fun h => h.le).sublist (List.drop_sublist _ _)
    have hlength : rs.length = S.log.length := by
      simpa using congrArg List.length hrs.read
    rw [get_of_some hl, sortedRecords_eq ((h.cleaned he hlive).1.trans hperm) hsorted,
      Session.answer, Session.current_of_live ttl now (hstart ▸ hlive), List.map_drop, hrs.read,
      ← List.map_drop, hlength]
  | none =>
    rw [get_of_none hl, Session.answer]
    rcases Nat.eq_zero_or_pos s.store.maxHistoryLen with hmax | hpos
    · rw [hmax]
      split
      · rw [Nat.sub_zero, List.drop_length]
        rfl
      · rfl
    · rw [h.current_eq_none hl hpos]
      rfl

omit [DecidableEq K] in
theorem apply_params (now : Time) (s : HistoryMemory M H Data) (op : RecordOperation K H Data) :
    (s.apply now op).store.ttl = s.store.ttl ∧
      (s.apply now op).store.maxHistoryLen = s.store.maxHistoryLen := by
  cases op with
  | push key => exact exec_params s.store now (.update key _)
  | get key => exact exec_params s.store now (.get key)
  | pop | delete | create => exact ⟨rfl, rfl⟩

end HistoryMemory

/-! ### The runs of a history -/

namespace UpdateHistory

open HistoryMemory

variable [LinearOrder Time] [Add Time] [DecidableEq K] {M : Histories K Time} {ttl : Time}
  {maxHistoryLen maxKeys : ℕ} (h : UpdateHistory Update K Data)

/-- What a call makes of the session of a key. -/
def after (ttl : Time) (key : K) (session : Option (Session H Data Time))
    (call : Time × HistoryCall Update K H Data) : Option (Session H Data Time) :=
  (h.operation call.2).elim session (Session.after ttl call.1 key session)

/-- The session of a key that calls lead to. -/
def session (ttl : Time) (key : K) (calls : List (Time × HistoryCall Update K H Data)) :
    Option (Session H Data Time) :=
  calls.foldl (h.after ttl key) none

omit [DecidableEq K] in
variable (maxKeys) in
/-- The keys that are found in the cache fit whenever something is recorded. -/
def FitsRun : HistoryMemory M H Data → List (Time × HistoryCall Update K H Data) → Prop
  | _, [] => True
  | s, (now, call) :: calls =>
    (∀ key items, h.operation call = some (.push key items) →
      M.Fits maxKeys s.store.histories now key) ∧
    FitsRun (h.exec now s call) calls

omit [DecidableEq K] [LinearOrder Time] [Add Time] in
/-- The memory of a new history. -/
def newMemory (M : Histories K Time) (H Data : Type) (ttl : Time) (maxHistoryLen : ℕ) :
    HistoryMemory M H Data where
  store := MemoryUpdateHistoryStore.new M ttl maxHistoryLen

variable {h} {s : HistoryMemory M H Data} {now t : Time} {key : K} {c : M.TtlCache ttl maxKeys}
  {session : Option (Session H Data Time)} {calls : List (Time × HistoryCall Update K H Data)}

omit [DecidableEq K] in
variable (now) in
theorem tracks_newMemory :
    (newMemory M H Data ttl maxHistoryLen).Tracks now key c none where
  sound := sound_new c
  ttl_eq := rfl
  of_live _ he _ := nomatch (c.entry_empty key).symm.trans he
  live _ _ hS := nomatch hS

omit [DecidableEq K] in
theorem exec_params (h : UpdateHistory Update K Data) (now : Time) (s : HistoryMemory M H Data)
    (call : HistoryCall Update K H Data) :
    (h.exec now s call).store.ttl = s.store.ttl ∧
      (h.exec now s call).store.maxHistoryLen = s.store.maxHistoryLen := by
  rw [exec_eq]
  cases h.operation call with
  | none => exact ⟨rfl, rfl⟩
  | some op => exact apply_params now s op

omit [DecidableEq K] in
theorem run_maxHistoryLen (h : UpdateHistory Update K Data) (s : HistoryMemory M H Data)
    (calls : List (Time × HistoryCall Update K H Data)) :
    (h.run s calls).store.maxHistoryLen = s.store.maxHistoryLen := by
  induction calls generalizing s with
  | nil => rfl
  | cons call calls ih => exact (ih _).trans (exec_params h call.1 s call.2).2

variable [AddRightMono Time]

/-- A call. -/
theorem tracks_exec (hs : s.Tracks now key c session) (call : HistoryCall Update K H Data)
    (hfits : ∀ key items, h.operation call = some (.push key items) →
      M.Fits maxKeys s.store.histories now key) :
    (h.exec now s call).Tracks now key c (h.after ttl key session (now, call)) := by
  rw [exec_eq, after]
  cases hop : h.operation call with
  | none => exact hs
  | some op =>
    exact hs.apply op fun k items hpush => hfits k items (hop.trans (congrArg some hpush))

/-- A run of calls. -/
theorem tracks_run (hs : s.Tracks now key c session)
    (htimes : (now :: (calls.map Prod.fst ++ [t])).Pairwise (· ≤ ·))
    (hfits : h.FitsRun maxKeys s calls) :
    (h.run s calls).Tracks t key c (calls.foldl (h.after ttl key) session) := by
  induction calls generalizing s now session with
  | nil => exact hs.mono (List.rel_of_pairwise_cons htimes List.mem_cons_self)
  | cons call calls ih =>
    obtain ⟨hle, htimes⟩ := List.pairwise_cons.1 htimes
    exact ih (tracks_exec (hs.mono (hle call.1 List.mem_cons_self)) call.2 hfits.1) htimes hfits.2

/-- What a history remembers. After any run of calls, and of updates that the dispatcher
    handles, with non-decreasing times and with keys that fit the cache, `get` and `pop` return for
    a key the last `maxHistoryLen` of the handlers recorded in the session that goes on, in the
    order they were recorded, each with its data and time; and nothing when none goes on. A session
    begins when handlers are recorded under the key and none goes on, and ends `ttl` later, or with
    a `pop` or `clear`. -/
theorem get_eq_session (c : M.TtlCache ttl maxKeys) (maxHistoryLen : ℕ)
    (calls : List (Time × HistoryCall Update K H Data)) (t : Time)
    (htimes : (calls.map Prod.fst ++ [t]).Pairwise (· ≤ ·))
    (hfits : h.FitsRun maxKeys (newMemory M H Data ttl maxHistoryLen) calls)
    (target : HistoryTarget Update K) (hkey : h.keyOf target = .ok (some key)) :
    let s := h.run (newMemory M H Data ttl maxHistoryLen) calls
    let answer := (Session.answer ttl t maxHistoryLen (h.session ttl key calls)).map some
    (h.get t s target).map (fun r => r.1.map s.read) = .ok answer ∧
      (h.pop t s target).map (fun r => r.1.map s.read) = .ok answer := by
  intro s answer
  have hs : s.Tracks t key c (h.session ttl key calls) := by
    cases calls with
    | nil => exact tracks_newMemory t
    | cons call calls =>
      have hle : ∀ t' ∈ call.1 :: (calls.map Prod.fst ++ [t]), call.1 ≤ t' :=
        List.forall_mem_cons.2 ⟨le_rfl, fun t' => List.rel_of_pairwise_cons htimes⟩
      exact tracks_run (tracks_newMemory call.1) (List.pairwise_cons.2 ⟨hle, htimes⟩) hfits
  have hanswer : (s.store.get t key).1.map s.read = answer := by
    rw [hs.answer, run_maxHistoryLen]
    rfl
  rw [get, pop, hkey]
  have hpop := congrArg (List.map s.read) (pop_fst_eq_get s.store t key)
  exact ⟨congrArg Except.ok hanswer, congrArg Except.ok (hpop.trans hanswer)⟩

/-- Two handlers of one update are recorded at 0, and another at 5. A reader gets the last two at 9,
    and nothing at 12, when the session has ended that began at 0. -/
theorem get_eq_session_three :
    let h : UpdateHistory Unit Unit Unit := ⟨fun _ => .ok true, fun _ => .ok (), fun _ => .ok ()⟩
    let calls : List (ℕ × HistoryCall Unit Unit ℕ Unit) :=
      [(0, .handle () [[passing 0 (.ok ())], [passing 1 (.error .exception)], [passing 2 (.ok ())]]),
        (5, .record () 3 true)]
    let s := h.run (newMemory (Mapping.lru Unit _ 10 1) ℕ Unit 10 2) calls
    (h.get 9 s (.update ())).map (fun r => r.1.map s.read) = .ok [some ⟨2, (), 0⟩, some ⟨3, (), 5⟩] ∧
      (h.get 12 s (.update ())).map (fun r => r.1.map s.read) = .ok [] := by
  intro h calls s
  have hfits : h.FitsRun 1 (newMemory (Mapping.lru Unit _ 10 1) ℕ Unit 10 2) calls :=
    ⟨fun _ _ _ => fits_unit, fun _ _ _ => fits_unit, trivial⟩
  let c := Mapping.lruTtlCache Unit (Array (UpdateRecord ℕ)) (10 : ℕ) 1
  exact ⟨(get_eq_session c 2 calls 9 (by decide) hfits (.update ()) rfl).1,
    (get_eq_session c 2 calls 12 (by decide) hfits (.update ()) rfl).1⟩

end UpdateHistory

end Pyroflow
