import Mathlib.Data.List.Range
import Pyroflow.Coordinator.Memory

/-!
# The tokens of the in-memory coordinator

`MemoryListenerCoordinator` draws its tokens from a counter that `stop` starts
again. Over any calls on one coordinator, the tokens issued are distinct as long as
no `stop` comes between two calls of `register` (`ids_nodup_iff`): the first token
after a `stop` is that of the first registration of all.

With distinct tokens, the holder of an earlier registration of a key neither
removes a later one nor is told that it is registered.
-/

namespace Pyroflow

/-- The calls on a coordinator. -/
inductive CoordinatorCall
  | register (key : ListenerKey)
  | unregister (key : ListenerKey) (coordinatorId : Option ℕ)
  | cancel (key : ListenerKey)
  | stop

namespace MemoryListenerCoordinator

/-- A call, on a coordinator with the ids issued so far and the keys they were issued for. -/
def call (p : MemoryListenerCoordinator × List (ListenerKey × ℕ)) :
    CoordinatorCall → MemoryListenerCoordinator × List (ListenerKey × ℕ)
  | .register key =>
    match p.1.register key with
    | some (id, m) => (m, p.2 ++ [(key, id)])
    | none => p
  | .unregister key coordinatorId => ((p.1.unregister key coordinatorId).2, p.2)
  | .cancel key => ((p.1.cancel key).2, p.2)
  | .stop => (p.1.stop, p.2)

/-- Some calls, on a new coordinator. -/
def calls (cs : List CoordinatorCall) : MemoryListenerCoordinator × List (ListenerKey × ℕ) :=
  cs.foldl call (empty, [])

theorem calls_concat {cs : List CoordinatorCall} {c : CoordinatorCall} :
    calls (cs ++ [c]) = call (calls cs) c := List.foldl_concat ..

/-! ### When the counter starts again -/

section Calls

variable {cs : List CoordinatorCall} {c : CoordinatorCall}

/-- `register` was called. -/
def Registers (cs : List CoordinatorCall) : Prop :=
  ∃ key, [CoordinatorCall.register key].Sublist cs

/-- `stop` was called after `register`. -/
def Restarts (cs : List CoordinatorCall) : Prop :=
  ∃ key, [CoordinatorCall.register key, .stop].Sublist cs

/-- `stop` was called between two calls of `register`. -/
def Reuses (cs : List CoordinatorCall) : Prop :=
  ∃ key key', [CoordinatorCall.register key, .stop, .register key'].Sublist cs

/-- The last call may be the last one of those looked for. -/
theorem concat_sublist_concat {l : List CoordinatorCall} {a : CoordinatorCall} :
    (l ++ [a]).Sublist (cs ++ [c]) ↔ (l ++ [a]).Sublist cs ∨ l.Sublist cs ∧ a = c := by
  have hrev (l l' : List CoordinatorCall) : l.Sublist l' ↔ l.reverse.Sublist l'.reverse :=
    List.reverse_sublist.symm
  -- Seen from the end, it is the first one or it is passed over.
  rw [hrev, hrev _ cs, hrev l cs]
  simp only [List.reverse_append, List.reverse_singleton, List.singleton_append]
  rw [List.sublist_cons_iff]
  refine or_congr_right ⟨?_, ?_⟩
  · rintro ⟨r, hr, hsub⟩
    obtain ⟨rfl, rfl⟩ := List.cons_eq_cons.1 hr
    exact ⟨hsub, rfl⟩
  · rintro ⟨hsub, rfl⟩
    exact ⟨_, rfl, hsub⟩

theorem registers_concat :
    Registers (cs ++ [c]) ↔ Registers cs ∨ ∃ key, c = .register key := by
  simp only [Registers]
  rw [← exists_or]
  refine exists_congr fun key => (concat_sublist_concat (l := [])).trans (or_congr_right ?_)
  simp [eq_comm]

theorem restarts_concat : Restarts (cs ++ [c]) ↔ Restarts cs ∨ Registers cs ∧ c = .stop := by
  simp only [Restarts, Registers]
  rw [← exists_and_right, ← exists_or]
  refine exists_congr fun key =>
    (concat_sublist_concat (l := [.register key])).trans (or_congr_right ?_)
  rw [eq_comm]

theorem reuses_concat :
    Reuses (cs ++ [c]) ↔ Reuses cs ∨ Restarts cs ∧ ∃ key, c = .register key := by
  simp only [Reuses, Restarts]
  constructor
  · rintro ⟨key, key', h⟩
    rcases (concat_sublist_concat (l := [.register key, .stop])).1 h with h' | ⟨h', hc⟩
    · exact .inl ⟨key, key', h'⟩
    · exact .inr ⟨⟨key, h'⟩, key', hc.symm⟩
  · rintro (⟨key, key', h⟩ | ⟨⟨key, h⟩, key', rfl⟩)
    · exact ⟨key, key', h.trans (List.sublist_append_left ..)⟩
    · exact ⟨key, key', h.append (List.Sublist.refl _)⟩

theorem Restarts.registers (h : Restarts cs) : Registers cs :=
  let ⟨key, h⟩ := h
  ⟨key, (List.sublist_append_left _ _).trans h⟩

/-! ### The ids issued -/

/-- What holds of the counter and of the ids issued, after some calls. -/
structure Issued (cs : List CoordinatorCall) (counter : ℕ) (ids : List ℕ) : Prop where
  /-- The first id is 0. -/
  new : ¬ Registers cs → counter = 0 ∧ ids = []
  first : Registers cs → 0 ∈ ids
  counted : ¬ Restarts cs → ids = List.range counter
  restarted : Restarts cs → ¬ Reuses cs → counter = 0 ∧ ids.Nodup
  reused : Reuses cs → ¬ ids.Nodup

/-- A call that issues nothing, and is no `stop`, changes nothing of that. -/
theorem Issued.keep {counter : ℕ} {ids : List ℕ} (h : Issued cs counter ids)
    (hr : ∀ key, c ≠ .register key) (hs : c ≠ .stop) : Issued (cs ++ [c]) counter ids := by
  have h₁ : Registers (cs ++ [c]) ↔ Registers cs :=
    registers_concat.trans (or_iff_left fun ⟨key, hc⟩ => hr key hc)
  have h₂ : Restarts (cs ++ [c]) ↔ Restarts cs :=
    restarts_concat.trans (or_iff_left fun hc => hs hc.2)
  have h₃ : Reuses (cs ++ [c]) ↔ Reuses cs :=
    reuses_concat.trans (or_iff_left fun ⟨_, key, hc⟩ => hr key hc)
  exact ⟨fun hr => h.new fun h => hr (h₁.2 h), fun hr => h.first (h₁.1 hr),
    fun hs => h.counted fun h => hs (h₂.2 h),
    fun hs hu => h.restarted (h₂.1 hs) fun h => hu (h₃.2 h), fun hu => h.reused (h₃.1 hu)⟩

theorem Issued.stop {counter : ℕ} {ids : List ℕ} (h : Issued cs counter ids) :
    Issued (cs ++ [.stop]) 0 ids := by
  have h₁ : Registers (cs ++ [.stop]) ↔ Registers cs :=
    registers_concat.trans (or_iff_left (by rintro ⟨key, hc⟩; cases hc))
  have h₂ : Restarts (cs ++ [.stop]) ↔ Registers cs :=
    restarts_concat.trans ⟨fun hc => hc.elim Restarts.registers And.left, fun hc => .inr ⟨hc, rfl⟩⟩
  have h₃ : Reuses (cs ++ [.stop]) ↔ Reuses cs :=
    reuses_concat.trans (or_iff_left (by rintro ⟨_, key, hc⟩; cases hc))
  refine ⟨fun hr => ?_, fun hr => h.first (h₁.1 hr), fun hr => ?_, fun _ hu => ?_,
    fun hu => h.reused (h₃.1 hu)⟩
  · exact ⟨rfl, (h.new fun h => hr (h₁.2 h)).2⟩
  · exact (h.new fun h => hr (h₂.2 h)).2
  · by_cases hs : Restarts cs
    · exact ⟨rfl, (h.restarted hs fun h => hu (h₃.2 h)).2⟩
    · exact ⟨rfl, h.counted hs ▸ List.nodup_range⟩

theorem registers_register {key : ListenerKey} : Registers (cs ++ [.register key]) :=
  registers_concat.2 (.inr ⟨key, rfl⟩)

theorem restarts_register {key : ListenerKey} :
    Restarts (cs ++ [.register key]) ↔ Restarts cs :=
  restarts_concat.trans (or_iff_left (by rintro ⟨_, hc⟩; cases hc))

theorem reuses_register {key : ListenerKey} :
    Reuses (cs ++ [.register key]) ↔ Reuses cs ∨ Restarts cs :=
  reuses_concat.trans (or_congr_right (and_iff_left ⟨key, rfl⟩))

/-- `register` issues the next id. -/
theorem Issued.register {counter : ℕ} {ids : List ℕ} (h : Issued cs counter ids)
    (key : ListenerKey) : Issued (cs ++ [.register key]) (counter + 1) (ids ++ [counter]) where
  new hr := absurd registers_register hr
  first _ := by
    by_cases hr : Registers cs
    · exact List.mem_append_left _ (h.first hr)
    · exact List.mem_append_right _ (by simp [(h.new hr).1])
  counted hs := by
    rw [h.counted fun h => hs (restarts_register.2 h)]
    exact List.range_succ.symm
  restarted hs hu := absurd (reuses_register.2 (.inr (restarts_register.1 hs))) hu
  reused hu hn := by
    rw [List.nodup_append] at hn
    by_cases hu' : Reuses cs
    · exact h.reused hu' hn.1
    · -- The counter has started again, and 0 was issued before.
      have hs := (reuses_register.1 hu).resolve_left hu'
      obtain ⟨rfl, -⟩ := h.restarted hs hu'
      exact hn.2.2 0 (h.first hs.registers) 0 (List.mem_singleton_self 0) rfl

/-- `register` raises `KeyError`, which it does only when some id is registered. -/
theorem Issued.registerFails {counter : ℕ} {ids : List ℕ} (h : Issued cs counter ids)
    (hc : counter ≠ 0) (key : ListenerKey) : Issued (cs ++ [.register key]) counter ids where
  new hr := absurd registers_register hr
  first _ := h.first (by_contra fun hr => hc (h.new hr).1)
  counted hs := h.counted fun h => hs (restarts_register.2 h)
  restarted hs hu := absurd (reuses_register.2 (.inr (restarts_register.1 hs))) hu
  reused hu := by
    -- After a restart without another registration, the counter would be 0.
    by_cases hu' : Reuses cs
    · exact h.reused hu'
    · exact absurd (h.restarted ((reuses_register.1 hu).resolve_left hu') hu').1 hc

theorem counter_of_register {m m' : MemoryListenerCoordinator} {key : ListenerKey} {id : ℕ}
    (h : m.register key = some (id, m')) : m'.counter = m.counter + 1 := by
  rw [MemoryListenerCoordinator.register] at h
  split at h
  · cases h
  · cases h
    rfl

theorem counter_unregister {m : MemoryListenerCoordinator} {key : ListenerKey}
    {coordinatorId : Option ℕ} : (m.unregister key coordinatorId).2.counter = m.counter := by
  rw [unregister]
  split
  · split <;> rfl
  · rfl

/-- The counter and the ids issued, after any calls. -/
theorem issued_calls (cs : List CoordinatorCall) :
    Issued cs (calls cs).1.counter ((calls cs).2.map Prod.snd) := by
  -- By induction on the last call.
  induction cs using List.reverseRecOn with
  | nil =>
    have h : ¬ Registers [] := fun ⟨_, h⟩ => by cases h
    have h' : ¬ Restarts [] := fun h' => h h'.registers
    refine ⟨fun _ => ⟨rfl, rfl⟩, fun hr => absurd hr h, fun _ => rfl, fun hs => absurd hs h',
      fun ⟨_, _, h⟩ => by cases h⟩
  | append_singleton cs c ih =>
    rw [calls_concat]
    cases c with
    | register key =>
      cases hr : (calls cs).1.register key with
      | some issued =>
        obtain ⟨id, m⟩ := issued
        simp only [call, hr, List.map_append, List.map_cons, List.map_nil]
        rw [counter_of_register hr, eq_counter_of_register hr]
        exact ih.register key
      | none =>
        simp only [call, hr]
        refine ih.registerFails (fun hc => ?_) key
        -- A key that is taken holds an id below the counter.
        obtain ⟨n, hn⟩ := Option.ne_none_iff_exists'.1 (register_eq_none hr)
        exact absurd ((calls cs).1.lt_counter hn) (by omega)
    | unregister key coordinatorId =>
      simp only [call, counter_unregister]
      exact ih.keep (by rintro _ ⟨⟩) (by rintro ⟨⟩)
    | cancel key =>
      simp only [call, cancel, counter_unregister]
      exact ih.keep (by rintro _ ⟨⟩) (by rintro ⟨⟩)
    | stop => exact ih.stop

end Calls

/-- The ids that the calls of `register` issue on one coordinator are distinct if and only
    if no `stop` comes between two of these calls. Then the holder of an earlier
    registration of a key neither removes a later one, nor is told that it is
    registered. -/
theorem ids_nodup_iff (cs : List CoordinatorCall) :
    (((calls cs).2.map Prod.snd).Nodup ↔
      ¬ ∃ key key', [CoordinatorCall.register key, .stop, .register key'].Sublist cs) ∧
    ((¬ ∃ key key', [CoordinatorCall.register key, .stop, .register key'].Sublist cs) →
      ∀ (i j : ℕ) key id id', i < j → (calls cs).2[i]? = some (key, id) →
        (calls cs).2[j]? = some (key, id') → (calls cs).1.data key = some id' →
        (calls cs).1.registered key (some id) = false ∧
          (calls cs).1.unregister key (some id) = (false, (calls cs).1)) := by
  have h := issued_calls cs
  have hnodup : ((calls cs).2.map Prod.snd).Nodup ↔ ¬ Reuses cs := by
    refine ⟨fun hn hu => h.reused hu hn, fun hu => ?_⟩
    by_cases hs : Restarts cs
    · exact (h.restarted hs hu).2
    · exact h.counted hs ▸ List.nodup_range
  refine ⟨hnodup, fun hu i j key id id' hij hi hj hd => ?_⟩
  -- Two places in the list of ids hold two ids.
  have hne : id ≠ id' := by
    rintro rfl
    have hi' : ((calls cs).2.map Prod.snd)[i]? = some id := by rw [List.getElem?_map, hi]; rfl
    have hj' : ((calls cs).2.map Prod.snd)[j]? = some id := by rw [List.getElem?_map, hj]; rfl
    have hlt := (List.getElem?_eq_some_iff.1 hi').1
    exact absurd ((List.getElem?_inj hlt (hnodup.2 hu)).1 (hi'.trans hj'.symm)) hij.ne
  refine ⟨?_, ?_⟩
  · rw [← Bool.not_eq_true, registered_some_iff, hd, Option.some.injEq]
    exact hne.symm
  · simp only [unregister, hd]
    exact if_pos ⟨Option.some_ne_none _, by simpa using hne⟩

/-- A key is cancelled and registered again: the holder of the first id does not remove the
    second registration. -/
theorem ids_nodup_iff_cancelled :
    ((calls [.register ⟨1, none, none⟩, .cancel ⟨1, none, none⟩,
      .register ⟨1, none, none⟩]).1.unregister ⟨1, none, none⟩ (some 0)).1 = false := by
  have hu : ¬ ∃ key key', [CoordinatorCall.register key, .stop, .register key'].Sublist
      [.register ⟨1, none, none⟩, .cancel ⟨1, none, none⟩, .register ⟨1, none, none⟩] := by
    rintro ⟨_, _, h⟩
    exact absurd (h.subset (.tail _ (.head _))) (by simp)
  have h := (ids_nodup_iff [.register ⟨1, none, none⟩, .cancel ⟨1, none, none⟩,
    .register ⟨1, none, none⟩]).2 hu 0 1 ⟨1, none, none⟩ 0 1 (by decide) rfl rfl rfl
  exact congrArg Prod.fst h.2

/-- A coordinator that is stopped issues its first id again: the holder of the registration
    before removes the one after. -/
theorem ids_reused : ¬ ((calls [.register ⟨1, none, none⟩, .stop,
      .register ⟨1, none, none⟩]).2.map Prod.snd).Nodup ∧
    (calls [.register ⟨1, none, none⟩, .stop, .register ⟨1, none, none⟩]).2 =
      [(⟨1, none, none⟩, 0), (⟨1, none, none⟩, 0)] ∧
    (calls [.register ⟨1, none, none⟩, .stop, .register ⟨1, none, none⟩]).1.registered
      ⟨1, none, none⟩ (some 0) = true ∧
    ((calls [.register ⟨1, none, none⟩, .stop, .register ⟨1, none, none⟩]).1.unregister
      ⟨1, none, none⟩ (some 0)).2.data ⟨1, none, none⟩ = none := by
  refine ⟨?_, rfl, rfl, rfl⟩
  decide

end MemoryListenerCoordinator

end Pyroflow
