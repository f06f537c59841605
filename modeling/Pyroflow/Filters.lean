import Mathlib.Data.List.Forall2
import Pyroflow.Lib.PyStr

/-!
# The `split_text` filter

`split_text` of `filters.py`: its constructor, which checks the rules and the separator
(`RuleValues.splitText`), and the filter it returns (`SplitText`), which splits the text of an
update at a separator and matches each part against a rule.

What a rule may be given as is a parameter (`RuleValues`): values of any kind, of which the
constructor asks whether they are strings, Enum classes, containers or callables. It makes
frozen sets of strings of the former three and keeps the callables; the filter asks again
whether a rule is a container.

The two halves agree: a filter has a rule at least, no set it holds is empty, and it has a
separator if it has several rules (`RuleValues.splitText_eq_ok_iff`). It matches the texts
that are made up of accepted parts, joined by the separator
(`SplitText.matchText_eq_true_iff`).
-/

namespace Pyroflow

open PyStr

/-! ### Updates -/

/-- The `data` of a `CallbackQuery`, which may be bytes. -/
inductive QueryData
  | str (text : List Char)
  | bytes (content : List UInt8)
  deriving DecidableEq, Repr

/-- The updates a filter is given: a `Message`, or a `CallbackQuery`. -/
inductive Update
  | message (text caption : Option (List Char))
  | callbackQuery (data : Option QueryData)
  deriving DecidableEq, Repr

/-- `_extract_text`. -/
def extractText : Update → List Char
  | .message text caption => ((text.filter (· ≠ [])).or caption).getD []
  | .callbackQuery (some (.str text)) => text
  | .callbackQuery _ => []

/-! ### Rules -/

/-- The values that rules are given as, and what is asked of them. -/
structure RuleValues where
  Value : Type
  /-- The text of an instance of `str`. -/
  str : Value → Option (List Char)
  /-- The values of the members of an Enum class. -/
  enum : Value → Option (List Value)
  /-- Whether the result of a callable for a part is true, once awaited; `none` when it
      raises. -/
  callable : Value → Option (List Char → Option Bool)
  /-- The truth value. -/
  truthy : Value → Bool
  /-- `is_container`. -/
  isContainer : Value → Bool
  /-- `iter_flat_cont`. -/
  iterFlatCont : Value → List Value
  /-- Whether a part is in a container. -/
  contains : Value → List Char → Bool
  /-- The frozen set of some strings. -/
  frozenset : List (List Char) → Value
  truthy_frozenset : ∀ texts, truthy (frozenset texts) = !texts.isEmpty
  isContainer_frozenset : ∀ texts, isContainer (frozenset texts) = true
  contains_frozenset : ∀ texts part, contains (frozenset texts) part = decide (part ∈ texts)

/-- What `split_text` raises. -/
inductive SplitTextError (Value : Type)
  | valueError (message : String)
  /-- The message names the type of the rule. -/
  | typeError (rule : Value)
  deriving DecidableEq, Repr

/-- The filter `split_text` returns: what its `caller` has from the constructor. -/
structure SplitText (V : RuleValues) where
  rules : List V.Value
  strip : Bool
  separator : Option (List Char)

namespace RuleValues

variable (V : RuleValues)

/-- The values that are strings, and not empty. -/
def texts (values : List V.Value) : List (List Char) :=
  (values.filterMap V.str).filter (· ≠ [])

/-- The values whose strings a rule stands for, if it stands for any: the members of an Enum
    class, or what is in a container or is the string. -/
def elements (rule : V.Value) : Option (List V.Value) :=
  match V.enum rule with
  | some values => some values
  | none =>
    if V.isContainer rule || (V.str rule).isSome then some (V.iterFlatCont rule) else none

/-- A rule, as the filter holds it. -/
def normalize (rule : V.Value) : Except (SplitTextError V.Value) V.Value :=
  match V.elements rule with
  | some values => .ok (V.frozenset (V.texts values))
  | none => if (V.callable rule).isSome then .ok rule else .error (.typeError rule)

/-- `split_text`. -/
def splitText (rules : List V.Value) (strip : Bool := false)
    (separator : Option (List Char) := none) : Except (SplitTextError V.Value) (SplitText V) :=
  if rules.isEmpty then
    .error (.valueError "split_text filter must be given at least one rule")
  else match rules.mapM V.normalize with
    | .error e => .error e
    | .ok normalizedRules =>
      if normalizedRules.any fun rule => !V.truthy rule then
        .error (.valueError "split_text rules must not be empty")
      else if 1 < normalizedRules.length ∧ separator = none then
        .error (.valueError
          "separator is required when split_text is given more than one rule")
      else .ok ⟨normalizedRules, strip, separator⟩

/-- The test of a part against a rule the filter holds; `none` when it raises. -/
def check (part : List Char) (rule : V.Value) : Option Bool :=
  if V.isContainer rule then some (V.contains rule part)
  else match V.callable rule with
    | some run => run part
    | none => none

/-- The loop of `caller` over the parts and the rules. -/
def checkAll : List (List Char × V.Value) → Option Bool
  | [] => some true
  | (part, rule) :: rest =>
    match V.check part rule with
    | none => none
    | some false => some false
    | some true => checkAll rest

end RuleValues

namespace SplitText

variable {V : RuleValues} (f : SplitText V)

/-- The parts of a text before they are stripped; `none` when `split` raises `ValueError`, as
    it does for an empty separator. -/
def parts (text : List Char) : Option (List (List Char)) :=
  match f.separator with
  | none => some [text]
  | some [] => none
  | some separator => some (split separator (f.rules.length - 1) text)

/-- `caller`, from the text of the update on; `none` when it raises. -/
def matchText (text : List Char) : Option Bool :=
  if text = [] then some false
  else match f.parts text with
    | none => none
    | some parts =>
      let parts := if f.strip then parts.map PyStr.strip else parts
      if parts.length ≠ f.rules.length then some false else V.checkAll (parts.zip f.rules)

/-- `caller`; `none` when it raises. -/
def caller (update : Update) : Option Bool := f.matchText (extractText update)

end SplitText

/-! ### Rules that are held -/

namespace RuleValues

variable {V : RuleValues} {value rule : V.Value} {part : List Char}

/-- What a rule accepts: one of the strings it stands for, other than the empty one, or what
    the callable returns true for. -/
def Accepts (V : RuleValues) (rule : V.Value) (part : List Char) : Prop :=
  match V.elements rule with
  | some values => part ≠ [] ∧ ∃ value ∈ values, V.str value = some part
  | none => ∃ run, V.callable rule = some run ∧ run part = some true

/-- A rule is a frozen set of strings, itself not empty and none of them empty, or it is a
    callable. -/
def WellFormed (V : RuleValues) (rule : V.Value) : Prop :=
  (∃ texts, rule = V.frozenset texts ∧ texts ≠ [] ∧ [] ∉ texts) ∨ (V.callable rule).isSome

theorem mem_texts {values : List V.Value} :
    part ∈ V.texts values ↔ part ≠ [] ∧ ∃ value ∈ values, V.str value = some part := by
  rw [texts, List.mem_filter, List.mem_filterMap, decide_eq_true_iff, and_comm]

theorem check_frozenset (texts : List (List Char)) :
    V.check part (V.frozenset texts) = some (decide (part ∈ texts)) := by
  rw [check, if_pos (V.isContainer_frozenset texts), V.contains_frozenset]

/-- What stands for no strings is no container. -/
theorem check_callable {run : List Char → Option Bool} (h : V.elements rule = none)
    (hrun : V.callable rule = some run) : V.check part rule = run part := by
  have hcont : V.isContainer rule = false := by
    rw [elements] at h
    split at h
    · cases h
    · split at h
      case isTrue => cases h
      case isFalse hneither => exact (Bool.or_eq_false_iff.1 (eq_false_of_ne_true hneither)).1
  rw [check, hcont, if_neg Bool.false_ne_true, hrun]

/-- A rule is made a frozen set of the strings it stands for, or kept if it is a callable. -/
theorem normalize_cases (h : V.normalize value = .ok rule) :
    (∃ values, V.elements value = some values ∧ rule = V.frozenset (V.texts values)) ∨
      V.elements value = none ∧ (∃ run, V.callable value = some run) ∧ rule = value := by
  rw [normalize] at h
  split at h
  case h_1 values hvalues => exact .inl ⟨values, hvalues, (Except.ok.inj h).symm⟩
  case h_2 hnone =>
    split at h
    case isTrue hrun =>
      exact .inr ⟨hnone, Option.isSome_iff_exists.1 hrun, (Except.ok.inj h).symm⟩
    case isFalse => cases h

/-- The rule held accepts the same parts. -/
theorem check_iff_accepts (h : V.normalize value = .ok rule) :
    V.check part rule = some true ↔ V.Accepts value part := by
  rw [Accepts]
  rcases normalize_cases h with ⟨values, hvalues, rfl⟩ | ⟨hnone, ⟨run, hrun⟩, rfl⟩
  · rw [check_frozenset, Option.some_inj, decide_eq_true_iff, mem_texts, hvalues]
  · rw [check_callable hnone hrun, hnone]
    simp only [hrun, Option.some.injEq, exists_eq_left']

/-- A rule held that is true is well formed. -/
theorem wellFormed_of_normalize (h : V.normalize value = .ok rule) (ht : V.truthy rule = true) :
    V.WellFormed rule := by
  rcases normalize_cases h with ⟨values, _, rfl⟩ | ⟨_, ⟨run, hrun⟩, rfl⟩
  · refine .inl ⟨_, rfl, fun hnil => ?_, fun hmem => (mem_texts.1 hmem).1 rfl⟩
    rw [V.truthy_frozenset, hnil] at ht
    cases ht
  · exact .inr (hrun ▸ rfl)

/-- A rule does not raise if it is not a callable that does. -/
theorem check_isSome_of_normalize (h : V.normalize value = .ok rule)
    (hruns : ∀ run, V.callable value = some run → ∀ part, (run part).isSome) :
    (V.check part rule).isSome := by
  rcases normalize_cases h with ⟨values, _, rfl⟩ | ⟨hnone, ⟨run, hrun⟩, rfl⟩
  · rw [check_frozenset, Option.isSome_some]
  · rw [check_callable hnone hrun]
    exact hruns run hrun part

/-! ### The constructor -/

variable {rules normalizedRules : List V.Value} {strip : Bool}
  {separator : Option (List Char)} {f : SplitText V}

/-- The rules are taken one by one, in order. -/
theorem forall₂_of_mapM (h : rules.mapM V.normalize = .ok normalizedRules) :
    List.Forall₂ (fun value rule => V.normalize value = .ok rule) rules normalizedRules := by
  induction rules generalizing normalizedRules with
  | nil =>
    obtain rfl := Except.ok.inj h
    exact .nil
  | cons value rules ih =>
    rw [List.mapM_cons] at h
    cases hv : V.normalize value with
    | error e =>
      rw [hv] at h
      cases h
    | ok rule =>
      rw [hv] at h
      change (rules.mapM V.normalize >>= _) = _ at h
      cases hr : rules.mapM V.normalize with
      | error e =>
        rw [hr] at h
        cases h
      | ok normalized =>
        rw [hr] at h
        obtain rfl := Except.ok.inj h
        exact .cons hv (ih hr)

/-- The rules held accept the same parts. -/
theorem forall₂_check_iff {parts : List (List Char)}
    (h : List.Forall₂ (fun value rule => V.normalize value = .ok rule) rules normalizedRules) :
    List.Forall₂ (fun rule part => V.check part rule = some true) normalizedRules parts ↔
      List.Forall₂ V.Accepts rules parts := by
  induction h generalizing parts with
  | nil => rw [List.forall₂_nil_left_iff, List.forall₂_nil_left_iff]
  | cons hv _ ih =>
    rw [List.forall₂_cons_left_iff, List.forall₂_cons_left_iff]
    simp only [check_iff_accepts hv, ih]

/-- Each rule held is made of one that was given. -/
theorem exists_normalize
    (h : List.Forall₂ (fun value rule => V.normalize value = .ok rule) rules normalizedRules)
    (hrule : rule ∈ normalizedRules) : ∃ value ∈ rules, V.normalize value = .ok rule := by
  induction h with
  | nil => cases hrule
  | cons hv _ ih =>
    rcases List.mem_cons.1 hrule with rfl | hrule
    · exact ⟨_, List.mem_cons_self, hv⟩
    · obtain ⟨value, hmem, hv⟩ := ih hrule
      exact ⟨value, List.mem_cons_of_mem _ hmem, hv⟩

/-- When the constructor returns a filter, and which. -/
theorem splitText_eq_ok_iff : V.splitText rules strip separator = .ok f ↔
    rules ≠ [] ∧ rules.mapM V.normalize = .ok f.rules ∧
      (∀ rule ∈ f.rules, V.truthy rule = true) ∧ (separator = none → f.rules.length ≤ 1) ∧
      f.strip = strip ∧ f.separator = separator := by
  obtain ⟨normalizedRules, strip', separator'⟩ := f
  rw [splitText]
  by_cases hnil : rules = []
  · subst hnil
    exact iff_of_false (fun h => by cases h) fun h => h.1 rfl
  rw [if_neg (by simpa using hnil), and_iff_right hnil]
  cases hm : rules.mapM V.normalize with
  | error e => exact iff_of_false (fun h => by cases h) fun h => by cases h.1
  | ok normalized =>
    dsimp only
    rw [Except.ok.injEq]
    split
    case isTrue hany =>
      obtain ⟨rule, hrule, hfalse⟩ := List.any_eq_true.1 hany
      refine iff_of_false (fun h => by cases h) fun ⟨heq, htruthy, _⟩ => ?_
      rw [htruthy rule (heq ▸ hrule)] at hfalse
      cases hfalse
    case isFalse hall =>
      have htruthy : ∀ rule ∈ normalized, V.truthy rule = true := by simpa using hall
      split
      case isTrue hsep =>
        refine iff_of_false (fun h => by cases h) fun ⟨heq, _, hone, _, hs⟩ => ?_
        subst heq hs
        exact absurd (hone hsep.2) (Nat.not_le.2 hsep.1)
      case isFalse hsep =>
        rw [Except.ok.injEq, SplitText.mk.injEq]
        constructor
        · intro ⟨hrules, hstrip, hs⟩
          subst hrules
          exact ⟨rfl, htruthy, fun hnone => Nat.not_lt.1 fun hlt => hsep ⟨hlt, hnone⟩,
            hstrip.symm, hs.symm⟩
        · intro ⟨hrules, _, _, hstrip, hs⟩
          exact ⟨hrules, hstrip.symm, hs.symm⟩

/-! ### The loop -/

variable {parts : List (List Char)}

/-- The loop goes on as long as the parts are accepted. -/
theorem checkAll_eq_true_iff (h : parts.length = rules.length) :
    V.checkAll (parts.zip rules) = some true ↔
      List.Forall₂ (fun rule part => V.check part rule = some true) rules parts := by
  induction parts generalizing rules with
  | nil =>
    obtain rfl := List.length_eq_zero_iff.1 h.symm
    exact iff_of_true rfl .nil
  | cons part parts ih =>
    cases rules with
    | nil => cases h
    | cons rule rules =>
      rw [List.zip_cons_cons, checkAll, List.forall₂_cons, ← ih (Nat.succ.inj h)]
      cases hc : V.check part rule with
      | none => simp
      | some b => cases b <;> simp

/-- The loop raises only if a rule does. -/
theorem checkAll_isSome (h : ∀ rule ∈ rules, ∀ part, (V.check part rule).isSome) :
    (V.checkAll (parts.zip rules)).isSome := by
  induction parts generalizing rules with
  | nil => rfl
  | cons part parts ih =>
    cases rules with
    | nil => rfl
    | cons rule rules =>
      obtain ⟨b, hb⟩ := Option.isSome_iff_exists.1 (h rule List.mem_cons_self part)
      rw [List.zip_cons_cons, checkAll, hb]
      cases b with
      | false => rfl
      | true => exact ih fun rule hrule => h rule (List.mem_cons_of_mem _ hrule)

end RuleValues

/-! ### The filter -/

namespace SplitText

open RuleValues

variable {V : RuleValues} {f : SplitText V} {sep text : List Char}

theorem parts_of_separator (h : f.separator = some sep) (hsep : sep ≠ []) :
    f.parts text = some (split sep (f.rules.length - 1) text) := by
  cases sep with
  | nil => exact absurd rfl hsep
  | cons c sep => rw [parts, h]

/-- A filter with a separator matches the texts that are made up of accepted parts, each but
    the last of which ends at the first separator. -/
theorem matchText_eq_true_iff (h : f.separator = some sep) (hsep : sep ≠ [])
    (hstrip : f.strip = false) (hrules : f.rules ≠ []) :
    f.matchText text = some true ↔ text ≠ [] ∧ ∃ parts, text = sep.intercalate parts ∧
      Leftmost sep parts ∧
      List.Forall₂ (fun rule part => V.check part rule = some true) f.rules parts := by
  rw [matchText]
  by_cases htext : text = []
  · rw [if_pos htext]
    exact iff_of_false (by simp) fun h => h.1 htext
  rw [if_neg htext, parts_of_separator h hsep, and_iff_right htext]
  dsimp only
  rw [hstrip, if_neg Bool.false_ne_true]
  constructor
  · intro hmatch
    split at hmatch
    case isTrue => cases hmatch
    case isFalse hlen =>
      exact ⟨_, intercalate_split.symm, leftmost_split,
        (checkAll_eq_true_iff (not_not.1 hlen)).1 hmatch⟩
  · intro ⟨parts, htext, hleft, haccept⟩
    have hlen := haccept.length_eq
    have hne : parts ≠ [] := by
      intro hnil
      rw [hnil, List.length_nil, List.length_eq_zero_iff] at hlen
      exact hrules hlen
    rw [htext, hlen, split_intercalate hleft hne, if_neg (not_not.2 rfl)]
    exact (checkAll_eq_true_iff hlen.symm).2 haccept

/-- A filter whose rules do not raise does not raise, unless the separator is empty. -/
theorem matchText_isSome_iff (h : ∀ rule ∈ f.rules, ∀ part, (V.check part rule).isSome) :
    (f.matchText text).isSome ↔ f.separator ≠ some [] ∨ text = [] := by
  rw [matchText]
  by_cases htext : text = []
  · rw [if_pos htext]
    exact iff_of_true rfl (.inr htext)
  rw [if_neg htext, or_iff_left htext]
  by_cases hs : f.separator = some []
  · rw [parts, hs]
    exact iff_of_false (by simp) fun hne => hne rfl
  · obtain ⟨parts, hparts⟩ : ∃ parts, f.parts text = some parts := by
      rw [SplitText.parts]
      split
      · exact ⟨_, rfl⟩
      case h_2 heq => exact absurd heq hs
      · exact ⟨_, rfl⟩
    rw [hparts]
    refine iff_of_true ?_ hs
    dsimp only
    generalize (if f.strip = true then parts.map PyStr.strip else parts) = parts
    split
    · rfl
    · exact checkAll_isSome h

end SplitText

/-! ### Plain rules -/

/-- Rules that are strings, callables or frozen sets of strings. -/
inductive PlainRule
  | str (text : List Char)
  | callable (run : List Char → Option Bool)
  | frozenset (texts : List (List Char))

namespace PlainRule

def text : PlainRule → Option (List Char)
  | .str text => some text
  | _ => none

def run : PlainRule → Option (List Char → Option Bool)
  | .callable run => some run
  | _ => none

/-- The strings in a frozen set. -/
def texts : PlainRule → Option (List (List Char))
  | .frozenset texts => some texts
  | _ => none

def truthy (rule : PlainRule) : Bool := !(rule.text == some [] || rule.texts == some [])

def contains (rule : PlainRule) (part : List Char) : Bool := (rule.texts.getD []).contains part

theorem truthy_frozenset (texts : List (List Char)) :
    (frozenset texts).truthy = !texts.isEmpty := by
  cases texts <;> rfl

theorem contains_frozenset (texts : List (List Char)) (part : List Char) :
    (frozenset texts).contains part = decide (part ∈ texts) :=
  List.contains_eq_mem part texts

theorem isSome_texts_frozenset (texts : List (List Char)) : (frozenset texts).texts.isSome = true :=
  rfl

end PlainRule

/-- The values that are such rules. -/
def RuleValues.plain : RuleValues where
  Value := PlainRule
  str := PlainRule.text
  enum _ := none
  callable := PlainRule.run
  truthy := PlainRule.truthy
  isContainer rule := rule.texts.isSome
  iterFlatCont rule := (rule.texts.map (List.map PlainRule.str)).getD [rule]
  contains := PlainRule.contains
  frozenset := PlainRule.frozenset
  truthy_frozenset := PlainRule.truthy_frozenset
  isContainer_frozenset := PlainRule.isSome_texts_frozenset
  contains_frozenset := PlainRule.contains_frozenset

/-! ### What is accepted, and what can run -/

section Results

variable {V : RuleValues} {rules : List V.Value} {strip : Bool}
  {separator : Option (List Char)} {f : SplitText V}

/-- A filter with a separator matches an update if and only if its text is made up of parts
    that the rules accept, where it takes the first separators for those between the parts.
    There is one way to take a text apart like this. -/
theorem splitText_matches {sep : List Char} (hf : V.splitText rules false (some sep) = .ok f)
    (hsep : sep ≠ []) :
    (∀ update, f.caller update = some true → extractText update ≠ [] ∧
      ∃ parts, extractText update = sep.intercalate parts ∧ Leftmost sep parts ∧
        List.Forall₂ V.Accepts rules parts) ∧
    (∀ update parts, extractText update = sep.intercalate parts → extractText update ≠ [] →
      Leftmost sep parts → List.Forall₂ V.Accepts rules parts → f.caller update = some true) ∧
    ∀ parts parts', Leftmost sep parts → Leftmost sep parts' → parts.length = parts'.length →
      sep.intercalate parts = sep.intercalate parts' → parts = parts' := by
  obtain ⟨hne, hm, _, _, hstrip, hs⟩ := RuleValues.splitText_eq_ok_iff.1 hf
  have hnormal := RuleValues.forall₂_of_mapM hm
  have hrules : f.rules ≠ [] := by
    intro hnil
    rw [hnil, List.forall₂_nil_right_iff] at hnormal
    exact hne hnormal
  have hmatch (update : Update) : f.caller update = some true ↔ _ :=
    SplitText.matchText_eq_true_iff hs hsep hstrip hrules
  simp only [RuleValues.forall₂_check_iff hnormal] at hmatch
  refine ⟨fun update => (hmatch update).1, fun update parts htext hne hleft hparts => ?_,
    fun parts parts' h h' hlen heq => h.unique h' hlen heq⟩
  exact (hmatch update).2 ⟨hne, parts, htext, hleft, hparts⟩

/-- A command and a number, which is checked by a callable. -/
theorem splitText_matches_ban :
    SplitText.caller (V := .plain) ⟨[.frozenset ["/ban".toList],
      .callable fun part => some (part.all Char.isDigit)], false, some [' ']⟩
      (.message (some "/ban 42".toList) none) = some true := by
  have hf : RuleValues.plain.splitText
      [.str "/ban".toList, .callable fun part => some (part.all Char.isDigit)] false
      (some [' ']) = .ok ⟨[.frozenset ["/ban".toList],
        .callable fun part => some (part.all Char.isDigit)], false, some [' ']⟩ := rfl
  refine (splitText_matches hf (by decide)).2.1 _ ["/ban".toList, "42".toList] rfl (by decide)
    ⟨find_eq_some_iff.1 (by decide), trivial⟩ ?_
  exact .cons ⟨by decide, _, List.mem_singleton_self _, rfl⟩ (.cons ⟨_, rfl, by decide⟩ .nil)

/-- A filter runs, and holds sets of strings and callables, if and only if its separator is
    not empty, or the update has no text. -/
theorem splitText_runs_iff (hf : V.splitText rules strip separator = .ok f)
    (hruns : ∀ value ∈ rules, ∀ run, V.callable value = some run → ∀ part, (run part).isSome) :
    ∀ update, ((f.caller update).isSome ∧ ∀ rule ∈ f.rules, V.WellFormed rule) ↔
      separator ≠ some [] ∨ extractText update = [] := by
  obtain ⟨_, hm, htruthy, _, _, hs⟩ := RuleValues.splitText_eq_ok_iff.1 hf
  have hnormal := RuleValues.forall₂_of_mapM hm
  have hwell : ∀ rule ∈ f.rules, V.WellFormed rule := by
    intro rule hrule
    obtain ⟨value, _, hv⟩ := RuleValues.exists_normalize hnormal hrule
    exact RuleValues.wellFormed_of_normalize hv (htruthy rule hrule)
  have hcheck : ∀ rule ∈ f.rules, ∀ part, (V.check part rule).isSome := by
    intro rule hrule part
    obtain ⟨value, hmem, hv⟩ := RuleValues.exists_normalize hnormal hrule
    exact RuleValues.check_isSome_of_normalize hv (hruns value hmem)
  intro update
  rw [and_iff_left hwell, SplitText.caller, SplitText.matchText_isSome_iff hcheck, hs]

/-- The filter of one string. -/
theorem splitText_runs_iff_hello :
    ((SplitText.caller (V := .plain) ⟨[.frozenset ["hello".toList]], false, none⟩
        (.message none (some "hi".toList))).isSome ∧
      ∀ rule ∈ [PlainRule.frozenset ["hello".toList]], RuleValues.plain.WellFormed rule) ↔
      (none : Option (List Char)) ≠ some [] ∨
        extractText (.message none (some "hi".toList)) = [] := by
  have hf : RuleValues.plain.splitText [.str "hello".toList] =
      .ok ⟨[.frozenset ["hello".toList]], false, none⟩ := rfl
  refine splitText_runs_iff hf (fun value hvalue run hrun => ?_) _
  rw [List.mem_singleton.1 hvalue] at hrun
  cases hrun

/-- An empty separator is not refused, and then cannot be split at. -/
theorem splitText_emptySeparator : ¬∀ (V : RuleValues) (rules : List V.Value) (strip : Bool)
    (separator : Option (List Char)) (f : SplitText V),
    V.splitText rules strip separator = .ok f →
    (∀ value ∈ rules, ∀ run, V.callable value = some run → ∀ part, (run part).isSome) →
    ∀ update, (f.caller update).isSome ∧ ∀ rule ∈ f.rules, V.WellFormed rule := by
  intro h
  have := h .plain [.str ['x']] false (some []) ⟨[.frozenset [['x']]], false, some []⟩ rfl
    (by rintro _ hvalue run hrun; rw [List.mem_singleton.1 hvalue] at hrun; cases hrun)
    (.message (some ['x']) none)
  exact absurd this.1 (by decide)

end Results

end Pyroflow
