import Mathlib.Algebra.Order.Ring.Int
import Mathlib.Data.List.DropRight

/-!
# Texts

The operations of Python's `str` used to encode and decode records, on texts as
lists of characters: partition from the right (`rpartition`), splitting on a
separator of any length (`split`), the decimal form of an integer (`str`) and its
reading (`int`), and replacement fields (`format_map`). `join` is
`List.intercalate`, and `split` on a single character, as often as it occurs,
`List.splitOn`. The limit that the interpreter puts on the number of digits of an
integer written or read, thousands by default, is not modelled.

What is written is read back: an integer from its decimal form
(`int_str`), the parts of a text from their concatenation
(`rpartition_append_cons`, `split_intercalate`), and a template from its literal
texts and fields (`formatMap_append`, `formatMap_field`).
-/

namespace PyStr

variable {sep c : Char} {l head tail name value : List Char}
  {fields : List Char → Option (List Char)}

/-! ### Partition -/

/-- `rpartition`: the text before the last separator and the one after it; all
    of the text is after it when there is none. -/
def rpartition (sep : Char) (l : List Char) : List Char × List Char :=
  ((l.rdropWhile (· ≠ sep)).dropLast, l.rtakeWhile (· ≠ sep))

/-- The part after the last separator is the one without separators. -/
theorem rpartition_append_cons (h : sep ∉ tail) :
    rpartition sep (head ++ sep :: tail) = (head, tail) := by
  have htail : ∀ c ∈ tail.reverse, decide (c ≠ sep) = true := by
    intro c hc
    exact decide_eq_true fun heq => h (heq ▸ List.mem_reverse.1 hc)
  have hrev : (head ++ sep :: tail).reverse = tail.reverse ++ sep :: head.reverse := by simp
  rw [rpartition, List.rdropWhile, List.rtakeWhile, hrev, List.dropWhile_append_of_pos htail,
    List.takeWhile_append_of_pos htail]
  simp

/-! ### Splitting -/

section Splitting

variable {sep : List Char} {parts parts' : List (List Char)} {i n : ℕ}

/-- The separator stands at the position, and nowhere before it. -/
def FirstAt (sep l : List Char) (i : ℕ) : Prop :=
  sep <+: l.drop i ∧ ∀ j < i, ¬ sep <+: l.drop j

/-- `find`; `none` for -1. -/
def find (sep : List Char) : List Char → Option ℕ
  | [] => if sep = [] then some 0 else none
  | c :: l => if sep <+: c :: l then some 0 else (find sep l).map (· + 1)

/-- `split(sep, maxsplit)`, for a separator that is not empty. -/
def split (sep : List Char) : ℕ → List Char → List (List Char)
  | 0, l => [l]
  | n + 1, l =>
    match find sep l with
    | none => [l]
    | some i => l.take i :: split sep n (l.drop (i + sep.length))

/-- Each part but the last ends at the first separator of the text it begins. -/
def Leftmost (sep : List Char) : List (List Char) → Prop
  | part :: next :: parts =>
    FirstAt sep (part ++ sep ++ sep.intercalate (next :: parts)) part.length ∧
      Leftmost sep (next :: parts)
  | _ => True

theorem firstAt_succ : FirstAt sep (c :: l) (i + 1) ↔ ¬ sep <+: c :: l ∧ FirstAt sep l i := by
  constructor
  · intro ⟨hat, hbefore⟩
    exact ⟨hbefore 0 i.succ_pos, hat, fun j hj => hbefore (j + 1) (Nat.succ_lt_succ hj)⟩
  · intro ⟨hc, hat, hbefore⟩
    refine ⟨hat, fun j hj => ?_⟩
    cases j with
    | zero => exact hc
    | succ j => exact hbefore j (Nat.lt_of_succ_lt_succ hj)

theorem firstAt_iff_eq_zero (h : sep <+: l) : FirstAt sep l i ↔ i = 0 := by
  constructor
  · intro ⟨_, hbefore⟩
    by_contra hi
    exact hbefore 0 (Nat.pos_of_ne_zero hi) h
  · intro hi
    subst hi
    exact ⟨h, fun j hj => absurd hj j.not_lt_zero⟩

theorem find_eq_some_iff : find sep l = some i ↔ FirstAt sep l i := by
  induction l generalizing i with
  | nil =>
    rw [find]
    split
    case isTrue h => rw [firstAt_iff_eq_zero (h ▸ List.nil_prefix), Option.some_inj, eq_comm]
    case isFalse h =>
      refine iff_of_false (by simp) fun hat => h ?_
      simpa using hat.1
  | cons c l ih =>
    rw [find]
    split
    case isTrue h => rw [firstAt_iff_eq_zero h, Option.some_inj, eq_comm]
    case isFalse h =>
      cases i with
      | zero => exact iff_of_false (by simp) fun hat => h hat.1
      | succ i => rw [firstAt_succ, ← ih, and_iff_right h, Option.map_eq_some_iff]; simp

theorem FirstAt.le_length (h : FirstAt sep l i) : i ≤ l.length := by
  by_contra hi
  have hat := h.1
  rw [List.drop_eq_nil_of_le (Nat.le_of_not_le hi)] at hat
  -- It would stand at the end of the text already.
  exact h.2 l.length (Nat.lt_of_not_le hi) (by rwa [List.drop_length])

/-- A text is what is before its first separator, the separator, and what is after it. -/
theorem FirstAt.append_eq (h : FirstAt sep l i) :
    l.take i ++ sep ++ l.drop (i + sep.length) = l := by
  obtain ⟨tail, htail⟩ := h.1
  have hdrop : l.drop (i + sep.length) = tail := by
    rw [← List.drop_drop, ← htail, List.drop_left]
  rw [hdrop, List.append_assoc, htail, List.take_append_drop]

theorem split_ne_nil : split sep n l ≠ [] := by
  cases n with
  | zero => exact List.cons_ne_nil _ _
  | succ n =>
    rw [split]
    split <;> exact List.cons_ne_nil _ _

/-- The parts a text is split into make up the text. -/
theorem intercalate_split : sep.intercalate (split sep n l) = l := by
  induction n generalizing l with
  | zero => exact List.intercalate_singleton
  | succ n ih =>
    rw [split]
    split
    case h_1 => exact List.intercalate_singleton
    case h_2 i hi =>
      rw [List.intercalate_cons_of_ne_nil split_ne_nil, ih]
      exact (find_eq_some_iff.1 hi).append_eq

theorem leftmost_cons (h : parts ≠ []) : Leftmost sep (head :: parts) ↔
    FirstAt sep (head ++ sep ++ sep.intercalate parts) head.length ∧ Leftmost sep parts := by
  cases parts with
  | nil => exact absurd rfl h
  | cons next parts => rfl

/-- A text is split at the first separators. -/
theorem leftmost_split : Leftmost sep (split sep n l) := by
  induction n generalizing l with
  | zero => exact trivial
  | succ n ih =>
    rw [split]
    split
    case h_1 => exact trivial
    case h_2 i hi =>
      have hat := find_eq_some_iff.1 hi
      rw [leftmost_cons split_ne_nil, intercalate_split, hat.append_eq,
        List.length_take_of_le hat.le_length]
      exact ⟨hat, ih⟩

/-- A text made up of parts that each end at the first separator is split into these. -/
theorem split_intercalate (h : Leftmost sep parts) (hne : parts ≠ []) :
    split sep (parts.length - 1) (sep.intercalate parts) = parts := by
  -- By induction on the parts, as the text is split: the first one first.
  induction parts with
  | nil => exact absurd rfl hne
  | cons part parts ih =>
    cases parts with
    | nil => rw [List.intercalate_singleton]; rfl
    | cons next parts =>
      obtain ⟨hat, h⟩ := h
      have hrest := ih h (List.cons_ne_nil next parts)
      rw [List.length_cons, Nat.add_sub_cancel] at hrest
      rw [List.intercalate_cons_cons, List.length_cons, Nat.add_sub_cancel, List.length_cons,
        split, find_eq_some_iff.2 hat]
      dsimp only
      rw [List.append_assoc, List.take_left, ← List.drop_drop, List.drop_left, List.drop_left,
        hrest]

/-- The parts are known from the text and their number. -/
theorem Leftmost.unique (h : Leftmost sep parts) (h' : Leftmost sep parts')
    (hlen : parts.length = parts'.length)
    (heq : sep.intercalate parts = sep.intercalate parts') : parts = parts' := by
  by_cases hne : parts = []
  · rw [hne, eq_comm, ← List.length_eq_zero_iff, ← hlen, hne, List.length_nil]
  · have hne' : parts' ≠ [] := fun hnil => hne (by rwa [hnil, List.length_nil,
      List.length_eq_zero_iff] at hlen)
    rw [← split_intercalate h hne, heq, hlen, split_intercalate h' hne']

end Splitting

/-! ### Integers -/

/-- The zeros of the decimal digits of Unicode 15: each is followed by the other
    nine. -/
def zeros : List ℕ :=
  [0x30, 0x660, 0x6F0, 0x7C0, 0x966, 0x9E6, 0xA66, 0xAE6, 0xB66, 0xBE6, 0xC66, 0xCE6, 0xD66, 0xDE6,
    0xE50, 0xED0, 0xF20, 0x1040, 0x1090, 0x17E0, 0x1810, 0x1946, 0x19D0, 0x1A80, 0x1A90, 0x1B50,
    0x1BB0, 0x1C40, 0x1C50, 0xA620, 0xA8D0, 0xA900, 0xA9D0, 0xA9F0, 0xAA50, 0xABF0, 0xFF10,
    0x104A0, 0x10D30, 0x11066, 0x110F0, 0x11136, 0x111D0, 0x112F0, 0x11450, 0x114D0, 0x11650,
    0x116C0, 0x11730, 0x118E0, 0x11950, 0x11C50, 0x11D50, 0x11DA0, 0x11F50, 0x16A60, 0x16AC0,
    0x16B50, 0x1D7CE, 0x1D7D8, 0x1D7E2, 0x1D7EC, 0x1D7F6, 0x1E140, 0x1E2F0, 0x1E4F0, 0x1E950,
    0x1FBF0]

/-- The value of a decimal digit. -/
def decimalValue (c : Char) : Option ℕ :=
  (zeros.find? fun z => z ≤ c.toNat ∧ c.toNat < z + 10).map (c.toNat - ·)

/-- The white space `int` ignores around a number. -/
def isSpace (c : Char) : Bool :=
  (9 ≤ c.toNat ∧ c.toNat ≤ 13) ∨ (0x2000 ≤ c.toNat ∧ c.toNat ≤ 0x200A) ∨
    c.toNat ∈ [0x20, 0x85, 0xA0, 0x1680, 0x2028, 0x2029, 0x202F, 0x205F, 0x3000]

/-- The number some digits stand for, underscores between them ignored. -/
def natOfDigits (l : List Char) : Option ℕ :=
  if [] ∈ l.splitOn '_' then none
  else ((l.splitOn '_').flatten.mapM decimalValue).map (List.foldl (fun n d => 10 * n + d) 0)

/-- `int(text)`; `none` when it raises `ValueError`. -/
def int (l : List Char) : Option ℤ :=
  match (l.dropWhile isSpace).rdropWhile isSpace with
  | '-' :: digits => (natOfDigits digits).map fun n : ℕ => -(n : ℤ)
  | '+' :: digits => (natOfDigits digits).map Int.ofNat
  | digits => (natOfDigits digits).map Int.ofNat

/-- `str(i)`. -/
def str (i : ℤ) : List Char :=
  if i < 0 then '-' :: Nat.toDigits 10 i.natAbs else Nat.toDigits 10 i.natAbs

theorem isDigit_of_mem {n : ℕ} (h : c ∈ Nat.toDigits 10 n) : c.isDigit :=
  Nat.isDigit_of_mem_toDigits (by decide) (by decide) h

theorem toNat_of_isDigit (h : c.isDigit) : 48 ≤ c.toNat ∧ c.toNat < 58 :=
  (Char.isDigit_iff_toNat.1 h).imp_right Nat.lt_succ_of_le

theorem decimalValue_of_isDigit (h : c.isDigit) : decimalValue c = some (c.toNat - '0'.toNat) := by
  have hc := toNat_of_isDigit h
  rw [decimalValue, zeros, List.find?_cons_of_pos (by simpa using hc)]
  rfl

/-- A traversal that fails nowhere. -/
theorem mapM_eq_some {α β : Type*} {f : α → Option β} {g : α → β} {l : List α}
    (h : ∀ x ∈ l, f x = some (g x)) : l.mapM f = some (l.map g) := by
  induction l with
  | nil => rfl
  | cons x l ih =>
    rw [List.mapM_cons, h x List.mem_cons_self, ih fun y hy => h y (List.mem_cons_of_mem x hy)]
    rfl

/-- A number is read back from its decimal digits. -/
theorem natOfDigits_toDigits (n : ℕ) : natOfDigits (Nat.toDigits 10 n) = some n := by
  have hsplit : (Nat.toDigits 10 n).splitOn '_' = [Nat.toDigits 10 n] :=
    List.splitOn_eq_singleton Nat.underscore_not_in_toDigits
  have hvalues : (Nat.toDigits 10 n).mapM decimalValue =
      some ((Nat.toDigits 10 n).map fun c => c.toNat - '0'.toNat) :=
    mapM_eq_some fun c hc => decimalValue_of_isDigit (isDigit_of_mem hc)
  rw [natOfDigits, hsplit, if_neg (by simp), List.flatten_singleton, hvalues, Option.map_some,
    List.foldl_map, ← Nat.ofDigitChars_eq_foldl, Nat.ofDigitChars_ten_toDigits]

theorem isSpace_of_isDigit (h : c.isDigit) : isSpace c = false := by
  have hc := toNat_of_isDigit h
  simp only [isSpace, decide_eq_false_iff_not, List.mem_cons, List.not_mem_nil, or_false]
  omega

/-- White space is not ignored inside a text that neither starts nor ends with it. -/
theorem strip_eq_self (h : ∀ c ∈ l, isSpace c = false) :
    (l.dropWhile isSpace).rdropWhile isSpace = l := by
  have hdrop : l.dropWhile isSpace = l :=
    List.dropWhile_eq_self_iff.2 fun hl => by simpa using h _ (List.getElem_mem hl)
  rw [hdrop]
  exact List.rdropWhile_eq_self_iff.2 fun hl => by simpa using h _ (List.getLast_mem hl)

/-- The characters of a decimal form. -/
theorem mem_str {i : ℤ} (h : c ∈ str i) : c = '-' ∨ c.isDigit := by
  rw [str] at h
  split at h
  · exact (List.mem_cons.1 h).imp_right isDigit_of_mem
  · exact .inr (isDigit_of_mem h)

/-- An integer is read back from its decimal form. -/
theorem int_str (i : ℤ) : int (str i) = some i := by
  have hspace : ∀ c ∈ str i, isSpace c = false := by
    intro c hc
    rcases mem_str hc with rfl | hdigit
    · rfl
    · exact isSpace_of_isDigit hdigit
  have hdigits := natOfDigits_toDigits i.natAbs
  rw [int, strip_eq_self hspace]
  by_cases hi : i < 0
  · simp only [str, if_pos hi, hdigits, Option.map_some, Int.ofNat_natAbs_of_nonpos hi.le, neg_neg]
  · rw [str, if_neg hi]
    have hvalue : (i.natAbs : ℤ) = i := Int.natAbs_of_nonneg (not_lt.1 hi)
    -- A digit is no sign.
    split
    · exact absurd (isDigit_of_mem (n := i.natAbs) (c := '-') (by simp [*])) (by decide)
    · exact absurd (isDigit_of_mem (n := i.natAbs) (c := '+') (by simp [*])) (by decide)
    · rw [hdigits, Option.map_some, Int.ofNat_eq_natCast, hvalue]

/-! ### White space -/

/-- The white space `strip` removes: what `int` ignores, and the separators of ASCII. -/
def isWhitespace (c : Char) : Bool :=
  isSpace c || (0x1C ≤ c.toNat ∧ c.toNat ≤ 0x1F)

/-- `strip`. -/
def strip (l : List Char) : List Char := (l.dropWhile isWhitespace).rdropWhile isWhitespace

/-! ### Replacement fields -/

/-- `format_map`, given the values of the fields; `none` when it raises. The
    second argument is the name of the field being read, if one is, in reverse.
    A field is a name: one with an attribute, an index, a conversion or a format
    specification is read as a name that has no value. -/
def formatMap (fields : List Char → Option (List Char)) :
    Option (List Char) → List Char → Option (List Char)
  | none, [] => some []
  | none, '{' :: '{' :: l => (formatMap fields none l).map ('{' :: ·)
  | none, '}' :: '}' :: l => (formatMap fields none l).map ('}' :: ·)
  | none, '{' :: l => formatMap fields (some []) l
  | none, '}' :: _ => none
  | none, c :: l => (formatMap fields none l).map (c :: ·)
  | some _, [] => none
  | some _, '{' :: _ => none
  | some name, '}' :: l =>
    (fields name.reverse).bind fun value => (formatMap fields none l).map (value ++ ·)
  | some name, c :: l => formatMap fields (some (c :: name)) l

theorem formatMap_cons (h : c ≠ '{' ∧ c ≠ '}') :
    formatMap fields none (c :: l) = (formatMap fields none l).map (c :: ·) := by
  rw [formatMap] <;> simp [h]

/-- A text without braces is copied. -/
theorem formatMap_append (h : ∀ c ∈ head, c ≠ '{' ∧ c ≠ '}') :
    formatMap fields none (head ++ l) = (formatMap fields none l).map (head ++ ·) := by
  induction head with
  | nil => simp
  | cons c head ih =>
    rw [List.cons_append, formatMap_cons (h c List.mem_cons_self),
      ih fun c hc => h c (List.mem_cons_of_mem _ hc), Option.map_map]
    rfl

theorem formatMap_some (h : ∀ c ∈ head, c ≠ '{' ∧ c ≠ '}')
    (hv : fields (name.reverse ++ head) = some value) :
    formatMap fields (some name) (head ++ '}' :: l) =
      (formatMap fields none l).map (value ++ ·) := by
  induction head generalizing name with
  | nil =>
    rw [List.append_nil] at hv
    rw [List.nil_append, formatMap, hv, Option.bind_some]
  | cons c head ih =>
    obtain ⟨hopen, hclose⟩ := h c List.mem_cons_self
    rw [List.cons_append, formatMap, ih fun c hc => h c (List.mem_cons_of_mem _ hc)]
    · simpa using hv
    all_goals simp [hopen, hclose]

/-- A field is replaced by its value. -/
theorem formatMap_field (h : ∀ c ∈ name, c ≠ '{' ∧ c ≠ '}') (hv : fields name = some value) :
    formatMap fields none ('{' :: name ++ '}' :: l) =
      (formatMap fields none l).map (value ++ ·) := by
  have hopen : ∀ l', name ++ '}' :: l = '{' :: l' → False := by
    intro l' heq
    cases name with
    | nil => simp at heq
    | cons c name => exact (h c List.mem_cons_self).1 (List.cons.inj heq).1
  rw [List.cons_append, formatMap, formatMap_some h hv]
  exact hopen

/-- A field at the end. -/
theorem formatMap_field_end (h : ∀ c ∈ name, c ≠ '{' ∧ c ≠ '}') (hv : fields name = some value) :
    formatMap fields none ('{' :: name ++ ['}']) = some value := by
  rw [formatMap_field h hv, formatMap, Option.map_some, List.append_nil]

end PyStr
