import Pyroflow.Lib.BitMask
import Pyroflow.Models

/-!
# The candidate keys

What `_get_plan` lists, and in what order: every submask of the mask once, those with more
bits first, and those with as many in the lexicographic order of their bits
(`mem_getPlan`, `pairwise_getPlan`). A key is told by its mask and its components, so that
the sub-keys of a key are the keys that match it, in the order of their masks
(`candidate_keys`).

The scan of the plan returns at the first submask with too few bits. As the sizes never
increase, nothing after it has enough (`takeWhile_eq_filter`).
-/

namespace Pyroflow

/-! ### Combinations -/

section Combinations

variable {α : Type*} {n : ℕ} {l c : List α}

/-- The combinations are the sublists of the size. -/
theorem mem_combinations : c ∈ combinations n l ↔ c.Sublist l ∧ c.length = n := by
  induction l generalizing n c with
  | nil =>
    cases n with
    | zero => simp [combinations]
    | succ n =>
      rw [combinations, List.sublist_nil]
      refine iff_of_false List.not_mem_nil ?_
      rintro ⟨rfl, h⟩
      exact absurd h (Nat.zero_ne_add_one n)
  | cons a l ih =>
    cases n with
    | zero =>
      rw [combinations, List.mem_singleton, List.length_eq_zero_iff]
      exact ⟨fun h => ⟨h ▸ List.nil_sublist _, h⟩, And.right⟩
    | succ n =>
      rw [combinations, List.mem_append, List.mem_map, ih, List.sublist_cons_iff]
      constructor
      · rintro (⟨c, hc, rfl⟩ | ⟨hc, hn⟩)
        · obtain ⟨hc, hn⟩ := ih.1 hc
          exact ⟨.inr ⟨c, rfl, hc⟩, congrArg (· + 1) hn⟩
        · exact ⟨.inl hc, hn⟩
      · rintro ⟨hc | ⟨c, rfl, hc⟩, hn⟩
        · exact .inr ⟨hc, hn⟩
        · exact .inl ⟨c, ih.2 ⟨hc, Nat.succ.inj hn⟩, rfl⟩

/-- Of an ascending list, they come in lexicographic order. -/
theorem pairwise_combinations [LT α] {l : List α} (h : l.Pairwise (· < ·)) :
    (combinations n l).Pairwise (· < ·) := by
  induction l generalizing n with
  | nil =>
    cases n with
    | zero => exact List.pairwise_singleton ..
    | succ n => exact List.Pairwise.nil
  | cons a l ih =>
    cases n with
    | zero => exact List.pairwise_singleton ..
    | succ n =>
      obtain ⟨ha, hl⟩ := List.pairwise_cons.1 h
      rw [combinations, List.pairwise_append, List.pairwise_map]
      refine ⟨(ih hl).imp fun h => List.cons_lt_cons_iff.2 (.inr ⟨rfl, h⟩), ih hl, ?_⟩
      -- Those that begin with the head come before the others.
      intro c hc d hd
      obtain ⟨c, _, rfl⟩ := List.mem_map.1 hc
      obtain ⟨hd, hn⟩ := mem_combinations.1 hd
      cases d with
      | nil => exact absurd hn (Nat.zero_ne_add_one n)
      | cons b d => exact List.cons_lt_cons_iff.2 (.inl (ha b (hd.subset List.mem_cons_self)))

end Combinations

/-! ### The plan of a mask -/

section Plan

variable {mask keep size : ℕ} {combo : List ℕ}

theorem lt_bitLength {i : ℕ} (h : mask.testBit i = true) : i < bitLength mask := by
  have hle := Nat.ge_two_pow_of_testBit h
  have hne : mask ≠ 0 := by
    rintro rfl
    exact absurd h (by simp)
  rw [bitLength, if_neg hne]
  exact Nat.lt_succ_of_le ((Nat.le_log2 hne).2 hle)

theorem setBits_eq (mask : ℕ) : setBits mask = mask.bitIndices := by
  refine ((List.pairwise_lt_range).filter _).eq_of_mem_iff Nat.bitIndices_sorted.pairwise ?_
  intro i
  rw [List.mem_filter, List.mem_range, Nat.mem_bitIndices]
  exact ⟨And.right, fun h => ⟨lt_bitLength h, h⟩⟩

/-- Of two submasks, the first one has more bits, or as many that come first in
    lexicographic order. -/
def Outranks (a b : ℕ) : Prop :=
  b.bitIndices.length < a.bitIndices.length ∨
    a.bitIndices.length = b.bitIndices.length ∧ a.bitIndices < b.bitIndices

theorem Outranks.ne {a b : ℕ} (h : Outranks a b) : a ≠ b := by
  rintro rfl
  exact h.elim (lt_irrefl _) fun h => List.lt_irrefl _ h.2

/-- The submasks of a size are those of the sublists of the bits of this length. -/
theorem bitIndices_of_mem_combinations (h : combo ∈ combinations size mask.bitIndices) :
    combo.toMask.bitIndices = combo ∧ combo.length = size := by
  obtain ⟨hsub, hlen⟩ := mem_combinations.1 h
  exact ⟨Nat.bitIndices_toMask (Nat.bitIndices_sorted.pairwise.sublist hsub), hlen⟩

/-- `_get_plan` lists the submasks. -/
theorem mem_getPlan : keep ∈ getPlan mask ↔ keep &&& mask = keep := by
  rw [Nat.and_eq_left_iff, getPlan, setBits_eq, List.mem_flatMap]
  constructor
  · rintro ⟨size, _, hkeep⟩
    obtain ⟨combo, hcombo, rfl⟩ := List.mem_map.1 hkeep
    change List.Sublist combo.toMask.bitIndices _
    rw [(bitIndices_of_mem_combinations hcombo).1]
    exact (mem_combinations.1 hcombo).1
  · intro h
    refine ⟨keep.bitIndices.length, ?_, ?_⟩
    · rw [List.mem_reverse, List.mem_range]
      exact Nat.lt_succ_of_le h.length_le
    · exact List.mem_map.2 ⟨_, mem_combinations.2 ⟨h, rfl⟩, Nat.toMask_bitIndices⟩

/-- It lists those with more bits first, and those with as many in lexicographic order. -/
theorem pairwise_getPlan (mask : ℕ) : (getPlan mask).Pairwise Outranks := by
  rw [getPlan, setBits_eq, List.pairwise_flatMap]
  constructor
  · -- Within a size.
    intro size _
    rw [List.pairwise_map]
    refine (pairwise_combinations Nat.bitIndices_sorted.pairwise).imp_of_mem ?_
    intro a b ha hb hlt
    obtain ⟨ha, hla⟩ := bitIndices_of_mem_combinations ha
    obtain ⟨hb, hlb⟩ := bitIndices_of_mem_combinations hb
    refine .inr ?_
    change a.toMask.bitIndices.length = b.toMask.bitIndices.length ∧
      a.toMask.bitIndices < b.toMask.bitIndices
    rw [ha, hb, hla, hlb]
    exact ⟨rfl, hlt⟩
  · -- The larger sizes come first.
    rw [List.pairwise_reverse]
    refine List.pairwise_lt_range.imp fun {n m} hlt keep hkeep keep' hkeep' => .inl ?_
    obtain ⟨a, hmema, rfl⟩ := List.mem_map.1 hkeep
    obtain ⟨b, hmemb, rfl⟩ := List.mem_map.1 hkeep'
    change b.toMask.bitIndices.length < a.toMask.bitIndices.length
    obtain ⟨ha, hla⟩ := bitIndices_of_mem_combinations hmema
    obtain ⟨hb, hlb⟩ := bitIndices_of_mem_combinations hmemb
    rw [ha, hb, hla, hlb]
    exact hlt

theorem nodup_getPlan (mask : ℕ) : (getPlan mask).Nodup :=
  (pairwise_getPlan mask).imp Outranks.ne

end Plan

/-! ### Candidates -/

/-- The elements that a loop keeps before it returns are all it would keep, if what it
    returns at is not followed by any. -/
theorem takeWhile_eq_filter {α : Type*} {p : α → Bool} {l : List α}
    (h : l.Pairwise fun a b => p b = true → p a = true) : l.takeWhile p = l.filter p := by
  induction l with
  | nil => rfl
  | cons a l ih =>
    obtain ⟨ha, hl⟩ := List.pairwise_cons.1 h
    cases hp : p a with
    | true => rw [List.takeWhile_cons_of_pos hp, List.filter_cons_of_pos hp, ih hl]
    | false =>
      rw [List.takeWhile_cons_of_neg (by simp [hp]), List.filter_cons_of_neg (by simp [hp])]
      refine (List.filter_eq_nil_iff.2 fun b hb hpb => ?_).symm
      exact absurd (hp.symm.trans (ha b hb hpb)) Bool.false_ne_true

namespace ListenerKey

variable {key pattern other : ListenerKey} {keep : ℕ}

/-- The number of components a key carries, counting the chat. -/
def components (key : ListenerKey) : ℕ := 1 + key.userId.isSome.toNat + key.messageId.isSome.toNat

/-- A key matches another one: its chat is the same, and the optional components it carries
    are. -/
structure Matches (pattern key : ListenerKey) : Prop where
  chatId : pattern.chatId = key.chatId
  userId : pattern.userId = none ∨ pattern.userId = key.userId ∧ key.userId ≠ none
  messageId : pattern.messageId = none ∨ pattern.messageId = key.messageId ∧ key.messageId ≠ none

/-- A key goes before another one: it carries more components, or as many, and a user where
    the other one carries a message. -/
def Precedes (pattern other : ListenerKey) : Prop :=
  other.components < pattern.components ∨ pattern.components = other.components ∧
    pattern.userId ≠ none ∧ pattern.messageId = none ∧ other.userId = none ∧ other.messageId ≠ none

theorem bitIndices_mask (key : ListenerKey) : key.mask.bitIndices =
    (if key.userId.isSome then [1] else []) ++ if key.messageId.isSome then [2] else [] := by
  rw [mask]
  cases key.userId.isSome <;> cases key.messageId.isSome <;> decide

theorem testBit_mask {i : ℕ} : key.mask.testBit i = true ↔
    i = 1 ∧ key.userId ≠ none ∨ i = 2 ∧ key.messageId ≠ none := by
  rw [← Nat.mem_bitIndices, bitIndices_mask]
  cases key.userId <;> cases key.messageId <;> simp

theorem components_eq (key : ListenerKey) : key.components = key.mask.bitIndices.length + 1 := by
  rw [bitIndices_mask, components]
  cases key.userId <;> cases key.messageId <;> rfl

theorem select_userId : (key.select keep).userId ≠ none ↔
    keep.testBit 1 = true ∧ key.userId ≠ none := by
  rw [select]
  cases keep.testBit 1 <;> simp

theorem select_messageId : (key.select keep).messageId ≠ none ↔
    keep.testBit 2 = true ∧ key.messageId ≠ none := by
  rw [select]
  cases keep.testBit 2 <;> simp

/-- The components selected by a submask are those of its bits. -/
theorem mask_select (h : keep &&& key.mask = keep) : (key.select keep).mask = keep := by
  refine Nat.eq_of_testBit_eq fun i => ?_
  rw [Bool.eq_iff_iff, testBit_mask, select_userId, select_messageId]
  constructor
  · rintro (⟨rfl, h, _⟩ | ⟨rfl, h, _⟩)
    · exact h
    · exact h
  · intro hi
    have hmask : key.mask.testBit i = true := by
      rw [← h, Nat.testBit_and, Bool.and_eq_true] at hi
      exact hi.2
    rcases testBit_mask.1 hmask with ⟨rfl, hne⟩ | ⟨rfl, hne⟩
    · exact .inl ⟨rfl, hi, hne⟩
    · exact .inr ⟨rfl, hi, hne⟩

/-- What a submask selects matches the key. -/
theorem matches_select (key : ListenerKey) (keep : ℕ) : (key.select keep).Matches key := by
  refine ⟨rfl, ?_, ?_⟩
  · cases hu : (key.select keep).userId with
    | none => exact .inl rfl
    | some u =>
      obtain ⟨hbit, hne⟩ := select_userId.1 (hu ▸ Option.some_ne_none u)
      exact .inr ⟨by rw [← hu, select, if_pos hbit], hne⟩
  · cases hm : (key.select keep).messageId with
    | none => exact .inl rfl
    | some m =>
      obtain ⟨hbit, hne⟩ := select_messageId.1 (hm ▸ Option.some_ne_none m)
      exact .inr ⟨by rw [← hm, select, if_pos hbit], hne⟩

/-- The mask of a key that matches is a submask. -/
theorem Matches.mask_and (h : pattern.Matches key) : pattern.mask &&& key.mask = pattern.mask := by
  refine Nat.eq_of_testBit_eq fun i => ?_
  rw [Nat.testBit_and]
  cases hi : pattern.mask.testBit i with
  | false => rfl
  | true =>
    rw [Bool.true_and, testBit_mask]
    exact (testBit_mask.1 hi).imp (And.imp_right fun hu => (h.userId.resolve_left hu).2)
      (And.imp_right fun hm => (h.messageId.resolve_left hm).2)

/-- It selects the key that matches. -/
theorem Matches.select_mask (h : pattern.Matches key) : key.select pattern.mask = pattern := by
  have huser : pattern.mask.testBit 1 = true ↔ pattern.userId ≠ none := by simp [testBit_mask]
  have hmessage : pattern.mask.testBit 2 = true ↔ pattern.messageId ≠ none := by
    simp [testBit_mask]
  rw [select, ← h.chatId]
  congr
  · split
    · next hbit => exact ((h.userId.resolve_left (huser.1 hbit)).1).symm
    · next hbit => exact (not_not.1 fun hu => hbit (huser.2 hu)).symm
  · split
    · next hbit => exact ((h.messageId.resolve_left (hmessage.1 hbit)).1).symm
    · next hbit => exact (not_not.1 fun hm => hbit (hmessage.2 hm)).symm

/-- The order of the plan is that of the keys. -/
theorem Precedes.of_outranks (h : Outranks pattern.mask other.mask) : pattern.Precedes other := by
  rw [Outranks, ← Nat.succ_lt_succ_iff, ← Nat.succ_inj, Nat.succ_eq_add_one, Nat.succ_eq_add_one,
    ← components_eq, ← components_eq] at h
  refine h.imp_right fun ⟨hc, hlt⟩ => ⟨hc, ?_⟩
  -- With as many components, the lists of the bits are `[1]` and `[2]`, or they are equal.
  rw [bitIndices_mask, bitIndices_mask] at hlt
  rw [components, components] at hc
  obtain ⟨_, userId, messageId⟩ := pattern
  obtain ⟨_, userId', messageId'⟩ := other
  cases userId <;> cases messageId <;> cases userId' <;> cases messageId' <;>
    simp [List.cons_lt_cons_iff] at hc hlt ⊢

theorem Precedes.ne (h : pattern.Precedes other) : pattern ≠ other := by
  rintro rfl
  exact h.elim (lt_irrefl _) fun h => h.2.1 h.2.2.2.1

/-- The loop on the plan goes through the submasks with enough bits. -/
theorem subKeys_eq (key : ListenerKey) (minDep : ℤ) : key.subKeys minDep =
    ((getPlan key.mask).filter fun keep => minDep ≤ (keep.bitIndices.length + 1 : ℤ)).map
      key.select := by
  have hpred : (fun keep => decide ¬((setBits keep).length + 1 : ℤ) < minDep) =
      fun keep => decide (minDep ≤ (keep.bitIndices.length + 1 : ℤ)) := by
    funext keep
    rw [setBits_eq, decide_eq_decide, not_lt]
  rw [subKeys, hpred, takeWhile_eq_filter]
  refine (pairwise_getPlan key.mask).imp fun {a b} hab hb => decide_eq_true ?_
  have hle : b.bitIndices.length ≤ a.bitIndices.length := hab.elim le_of_lt fun h => h.1.ge
  have := of_decide_eq_true hb
  omega

/-- The sub-keys of a key are the keys that match it and carry enough components. -/
theorem mem_subKeys {minDep : ℤ} :
    pattern ∈ key.subKeys minDep ↔ pattern.Matches key ∧ minDep ≤ pattern.components := by
  rw [subKeys_eq, List.mem_map]
  constructor
  · rintro ⟨keep, hkeep, rfl⟩
    obtain ⟨hplan, hdep⟩ := List.mem_filter.1 hkeep
    refine ⟨matches_select key keep, ?_⟩
    rw [components_eq, mask_select (mem_getPlan.1 hplan)]
    exact_mod_cast of_decide_eq_true hdep
  · rintro ⟨h, hdep⟩
    refine ⟨pattern.mask, List.mem_filter.2 ⟨mem_getPlan.2 h.mask_and, ?_⟩, h.select_mask⟩
    rw [components_eq] at hdep
    exact decide_eq_true (by exact_mod_cast hdep)

/-- They come with more components first, and with a user before those with a message. -/
theorem pairwise_subKeys (key : ListenerKey) (minDep : ℤ) :
    (key.subKeys minDep).Pairwise Precedes := by
  rw [subKeys_eq, List.pairwise_map]
  refine ((pairwise_getPlan key.mask).filter _).imp_of_mem fun {a b} ha hb hab => ?_
  have ha := mem_getPlan.1 (List.mem_filter.1 ha).1
  have hb := mem_getPlan.1 (List.mem_filter.1 hb).1
  exact .of_outranks (by rwa [mask_select ha, mask_select hb])

end ListenerKey

/-- The candidate keys are exactly the matching patterns, most specific first. The plan of a
    mask lists every submask once, those with more bits first, and those with as many in
    lexicographic order. So the sub-keys of a key are the keys that match it and carry at
    least as many components as asked for, each once, those with more components first, and
    of two with as many, the one that keeps the user before the one that keeps the message. -/
theorem candidate_keys :
    (∀ mask : ℕ, (∀ keep, keep ∈ getPlan mask ↔ keep &&& mask = keep) ∧ (getPlan mask).Nodup ∧
      (getPlan mask).Pairwise Outranks) ∧
    ∀ (key : ListenerKey) (minDep : ℤ),
      (∀ pattern, pattern ∈ key.subKeys minDep ↔
        pattern.Matches key ∧ minDep ≤ pattern.components) ∧
      (key.subKeys minDep).Nodup ∧ (key.subKeys minDep).Pairwise ListenerKey.Precedes :=
  ⟨fun mask => ⟨fun _ => mem_getPlan, nodup_getPlan mask, pairwise_getPlan mask⟩,
    fun key minDep => ⟨fun _ => ListenerKey.mem_subKeys,
      (key.pairwise_subKeys minDep).imp ListenerKey.Precedes.ne, key.pairwise_subKeys minDep⟩⟩

end Pyroflow
