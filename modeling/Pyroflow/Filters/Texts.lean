import Pyroflow.Filters

/-!
# The filters on whole texts

`endswith`, `startswith` and `equal` of `filters.py`: the text of the update ends with, starts with
or is one of some texts. The texts are given in nested containers, where what is no string, or
empty, is left out.

So an update without a text is matched by none of them (`extractText_ne_nil`), and `equal` is
`split_text` with these texts as its only rule, if there are any (`caller_eq_equal`). When
`split_text` does not strip its parts and its first rule is a container of texts, an update that it
matches starts with one of them; when its last rule is one, the update ends with one of them
(`startswith_of_caller`, `endswith_of_caller`).
-/

namespace Pyroflow

open PyStr

namespace RuleValues

variable (V : RuleValues)

/-- `flat_texts`, for the tuple of the arguments. -/
def flatTexts (texts : V.Value) : List (List Char) := V.texts (V.iterFlatCont texts)

/-- A filter on the text of an update: a test is true for one of the texts given. -/
def anyText (test : List Char → List Char → Bool) (texts : V.Value) (update : Update) : Bool :=
  (V.flatTexts texts).any fun text => test text (extractText update)

/-- `endswith`. -/
def endswith : V.Value → Update → Bool := V.anyText List.isSuffixOf

/-- `startswith`. -/
def startswith : V.Value → Update → Bool := V.anyText List.isPrefixOf

/-- `equal`. -/
def equal : V.Value → Update → Bool := V.anyText fun text whole => text == whole

variable {V} {test : List Char → List Char → Bool} {texts rule : V.Value}
  {rules : List V.Value} {sep part : List Char} {f : SplitText V} {update : Update}

/-- An update without a text is matched by no text that is not empty. -/
theorem extractText_ne_nil (htest : ∀ text, test text [] = true → text = [])
    (h : V.anyText test texts update = true) : extractText update ≠ [] := by
  obtain ⟨text, hmem, htext⟩ := List.any_eq_true.1 h
  intro hnil
  rw [hnil] at htext
  exact (mem_texts.1 hmem).1 (htest text htext)

theorem extractText_ne_nil_of_endswith (h : V.endswith texts update = true) :
    extractText update ≠ [] :=
  extractText_ne_nil (fun _ htext => List.suffix_nil.1 (List.isSuffixOf_iff_suffix.1 htext)) h

theorem extractText_ne_nil_of_startswith (h : V.startswith texts update = true) :
    extractText update ≠ [] :=
  extractText_ne_nil (fun _ htext => List.prefix_nil.1 (List.isPrefixOf_iff_prefix.1 htext)) h

theorem extractText_ne_nil_of_equal (h : V.equal texts update = true) : extractText update ≠ [] :=
  extractText_ne_nil (fun _ htext => eq_of_beq htext) h

theorem equal_eq_true_iff :
    V.equal texts update = true ↔ extractText update ∈ V.flatTexts texts := by
  rw [equal, anyText, List.any_beq']
  simp

/-! ### As rules of `split_text` -/

theorem normalize_container (henum : V.enum texts = none) (hcont : V.isContainer texts = true) :
    V.normalize texts = .ok (V.frozenset (V.flatTexts texts)) := by
  rw [normalize, elements, henum, hcont]
  rfl

/-- The filter of the texts as its only rule is `equal`. -/
theorem caller_eq_equal (henum : V.enum texts = none) (hcont : V.isContainer texts = true)
    (hf : V.splitText [texts] = .ok f) : f.caller update = some (V.equal texts update) := by
  obtain ⟨-, hrules, -, -, hstrip, hsep⟩ := splitText_eq_ok_iff.1 hf
  have hrule : f.rules = [V.frozenset (V.flatTexts texts)] := by
    rw [List.mapM_cons, normalize_container henum hcont] at hrules
    exact (Except.ok.inj hrules).symm
  rw [SplitText.caller, SplitText.matchText]
  split
  case isTrue hnil =>
    rw [Option.some_inj, eq_comm, ← Bool.not_eq_true]
    exact fun h => extractText_ne_nil_of_equal h hnil
  case isFalse =>
    have hparts : f.parts (extractText update) = some [extractText update] := by
      rw [SplitText.parts, hsep]
    have heq : V.equal texts update = decide (extractText update ∈ V.flatTexts texts) := by
      rw [Bool.eq_iff_iff, equal_eq_true_iff, decide_eq_true_iff]
    rw [hparts, heq]
    simp only [hstrip, hrule, Bool.false_eq_true, if_false, List.length_singleton, ne_eq,
      not_true_eq_false, List.zip_cons_cons, List.zip_nil_left, checkAll, check_frozenset]
    split <;> simp_all

/-- A text that is matched part by part is made up of parts that the rules accept. -/
theorem exists_parts_of_caller (hsep : sep ≠ []) (hne : rules ≠ [])
    (hf : V.splitText rules false (some sep) = .ok f) (h : f.caller update = some true) :
    ∃ parts, extractText update = sep.intercalate parts ∧ List.Forall₂ V.Accepts rules parts := by
  obtain ⟨-, hrules, -, -, hstrip, hseparator⟩ := splitText_eq_ok_iff.1 hf
  have hforall := forall₂_of_mapM hrules
  have hne' : f.rules ≠ [] := by
    intro hnil
    rw [hnil, List.forall₂_nil_right_iff] at hforall
    exact hne hforall
  obtain ⟨-, parts, htext, -, haccept⟩ :=
    (SplitText.matchText_eq_true_iff hseparator hsep hstrip hne').1 h
  exact ⟨parts, htext, (forall₂_check_iff hforall).1 haccept⟩

/-- What a container of texts accepts is one of them. -/
theorem mem_flatTexts_of_accepts (henum : V.enum texts = none)
    (hcont : V.isContainer texts = true) (h : V.Accepts texts part) : part ∈ V.flatTexts texts := by
  rw [Accepts, elements, henum, hcont] at h
  exact mem_texts.2 h

theorem suffix_intercalate {parts : List (List Char)} :
    part <:+ sep.intercalate (parts ++ [part]) := by
  induction parts with
  | nil => exact ⟨[], by rw [List.nil_append, List.nil_append, List.intercalate_singleton]⟩
  | cons head parts ih =>
    rw [List.cons_append, List.intercalate_cons_of_ne_nil (List.concat_ne_nil _ _)]
    exact ih.trans (List.suffix_append _ _)

/-- The update starts with what the first rule accepts. -/
theorem startswith_of_caller (henum : V.enum texts = none) (hcont : V.isContainer texts = true)
    (hsep : sep ≠ []) (hf : V.splitText (texts :: rules) false (some sep) = .ok f)
    (h : f.caller update = some true) : V.startswith texts update = true := by
  obtain ⟨parts, htext, haccept⟩ := exists_parts_of_caller hsep (List.cons_ne_nil _ _) hf h
  cases haccept with
  | @cons _ part _ parts hpart =>
    refine List.any_eq_true.2 ⟨part, mem_flatTexts_of_accepts henum hcont hpart, ?_⟩
    rw [List.isPrefixOf_iff_prefix, htext]
    cases parts with
    | nil => exact ⟨[], by rw [List.append_nil, List.intercalate_singleton]⟩
    | cons next parts =>
      rw [List.intercalate_cons_cons, List.append_assoc]
      exact List.prefix_append _ _

/-- The update ends with what the last rule accepts. -/
theorem endswith_of_caller (henum : V.enum texts = none) (hcont : V.isContainer texts = true)
    (hsep : sep ≠ []) (hf : V.splitText (rules ++ [texts]) false (some sep) = .ok f)
    (h : f.caller update = some true) : V.endswith texts update = true := by
  obtain ⟨parts, htext, haccept⟩ :=
    exists_parts_of_caller hsep (List.append_ne_nil_of_right_ne_nil _ (List.cons_ne_nil _ _)) hf h
  have hdrop : List.Forall₂ (flip V.Accepts) (parts.drop rules.length) [texts] :=
    List.forall₂_drop_append parts rules [texts] haccept.flip
  obtain ⟨part, rest, hpart, hnil, heq⟩ := List.forall₂_cons_right_iff.1 hdrop
  obtain rfl := List.forall₂_nil_right_iff.1 hnil
  refine List.any_eq_true.2 ⟨part, mem_flatTexts_of_accepts henum hcont hpart, ?_⟩
  rw [List.isSuffixOf_iff_suffix, htext, ← List.take_append_drop rules.length parts, heq]
  exact suffix_intercalate

end RuleValues

end Pyroflow
