import Pyroflow.Lib.PyStr
import Pyroflow.Lib.Regex

/-!
# Commands

The commands that `MessageListener._is_bypass` lets past a listener: the pattern it finds one
with (`commandRe`), and what it reads off the match, up to its call of `_get_bot_commands`
(`commandName`).

A text that the pattern matches begins with a command, and the match is the command it
begins with: the two together are read in one way only (`parseCommand_eq_some_iff`). What is
Unicode's, the characters of words and the lower case, is a parameter (`Unicode`).
-/

namespace Pyroflow

open PyStr

/-- What the patterns and the texts of the program take from Unicode. -/
structure Unicode where
  /-- `isalnum`, of one character. -/
  isAlnum : Char → Bool
  /-- `lower`. -/
  lower : List Char → List Char
  lower_nil : lower [] = []
  lower_ne_nil : ∀ text, text ≠ [] → lower text ≠ []
  isAlnum_of_isWhitespace : ∀ c, isWhitespace c = true → isAlnum c = false

/-- A command: its name, and the user name of the bot it is for, if it says so. -/
@[ext] structure Command where
  name : List Char
  target : Option (List Char)
  deriving DecidableEq, Repr

namespace MessageListener

/-! ### The pattern -/

/-- `[a-zA-Z0-9_]`. -/
def isNameChar (c : Char) : Bool := c.isAlphanum || c = '_'

variable (U : Unicode)

/-- `\w`. -/
def isWordChar (c : Char) : Bool := U.isAlnum c || c = '_'

/-- `([a-zA-Z][a-zA-Z0-9_]{0,31})`. -/
def nameRe : Regex Char :=
  .group 1 (.seq (.set Char.isAlpha) (.many isNameChar 0 (some 31)))

/-- `(?:@(\w+))?`. -/
def targetRe : Regex Char :=
  .opt (.seq (.set (· = '@')) (.group 2 (.many (isWordChar U) 1 none)))

/-- `(?:\s|$)`. The end of the text may be a line break away. -/
def endRe : Regex Char :=
  .alt (.set isWhitespace) (.ahead fun l => l = [] ∨ l = ['\n'])

/-- `_COMMAND_RE`. A match starts where the text does, so there is no `^`. -/
def commandRe : Regex Char :=
  .seq (.set (· = '/')) (.seq nameRe (.seq (targetRe U) endRe))

/-- The command that the match of a text has in its groups. -/
def parseCommand (text : List Char) : Option Command :=
  ((commandRe U).firstMatch text).map fun m => ⟨(m.2 1).getD [], m.2 2⟩

/-- A letter and up to 31 letters, digits and underscores. -/
def IsName (name : List Char) : Prop :=
  ∃ c tail, name = c :: tail ∧ c.isAlpha = true ∧ tail.length ≤ 31 ∧
    ∀ c ∈ tail, isNameChar c = true

/-- A word. -/
def IsTarget (target : List Char) : Prop :=
  target ≠ [] ∧ ∀ c ∈ target, isWordChar U c = true

end MessageListener

open MessageListener

variable (U : Unicode) {command command' : Command} {text tail tail' l l' : List Char}
  {g g' : Regex.Groups Char} {c : Char}

namespace Command

/-- The text of the target of a command. -/
def targetStr (command : Command) : List Char :=
  command.target.elim [] fun target => '@' :: target

/-- The text of a command. -/
def str (command : Command) : List Char := '/' :: (command.name ++ command.targetStr)

variable (command) in
structure WellFormed : Prop where
  name : IsName command.name
  target : ∀ target ∈ command.target, IsTarget U target

variable (command text) in
/-- The text begins with the command, and white space follows, or nothing. -/
def Heads : Prop :=
  command.WellFormed U ∧ ∃ tail, text = command.str ++ tail ∧
    ∀ c ∈ tail.head?, isWhitespace c = true

end Command

/-! ### The command of a text -/

namespace MessageListener

theorem IsName.isNameChar {name : List Char} (h : IsName name) :
    ∀ c ∈ name, isNameChar c = true := by
  obtain ⟨c, tail, rfl, hc, -, htail⟩ := h
  intro c' hc'
  rcases List.mem_cons.1 hc' with rfl | hc'
  · simp [MessageListener.isNameChar, Char.isAlphanum, hc]
  · exact htail c' hc'

theorem toNat_of_isNameChar (h : isNameChar c = true) :
    48 ≤ c.toNat ∧ c.toNat ≤ 122 ∧ c.toNat ≠ 64 := by
  have hupper : c.isUpper = true → 65 ≤ c.toNat ∧ c.toNat ≤ 90 := fun h => of_decide_eq_true h
  have hlower : c.isLower = true → 97 ≤ c.toNat ∧ c.toNat ≤ 122 := fun h =>
    (Bool.and_eq_true_iff.1 h).imp of_decide_eq_true of_decide_eq_true
  have hdigit : c.isDigit = true → 48 ≤ c.toNat ∧ c.toNat ≤ 57 := fun h =>
    (Bool.and_eq_true_iff.1 h).imp of_decide_eq_true of_decide_eq_true
  rcases Bool.or_eq_true_iff.1 h with h | h
  · rcases Bool.or_eq_true_iff.1 h with h | h
    · rcases Bool.or_eq_true_iff.1 h with h | h
      · have := hupper h
        omega
      · have := hlower h
        omega
    · have := hdigit h
      omega
  · obtain rfl := decide_eq_true_iff.1 h
    decide

theorem toNat_of_isWhitespace (h : isWhitespace c = true) : c.toNat ≤ 32 ∨ 133 ≤ c.toNat := by
  simp only [isWhitespace, isSpace, Bool.or_eq_true, decide_eq_true_eq, List.mem_cons,
    List.not_mem_nil, or_false] at h
  omega

/-- A name ends where white space or a target begins. -/
theorem not_isNameChar (h : isWhitespace c = true ∨ c = '@') : isNameChar c = false := by
  by_contra hc
  have hname := toNat_of_isNameChar (by simpa using hc)
  rcases h with h | rfl
  · have := toNat_of_isWhitespace h
    omega
  · exact hname.2.2 rfl

/-- A word ends where white space begins. -/
theorem not_isWordChar (h : isWhitespace c = true) : isWordChar U c = false := by
  have hc : c ≠ '_' := by
    rintro rfl
    exact absurd h (by decide)
  simp [isWordChar, U.isAlnum_of_isWhitespace c h, hc]

end MessageListener

/-- The characters and the case of ASCII. -/
def Unicode.ascii : Unicode where
  isAlnum := Char.isAlphanum
  lower := List.map Char.toLower
  lower_nil := rfl
  lower_ne_nil _ h := mt List.map_eq_nil_iff.1 h
  isAlnum_of_isWhitespace _ h := (Bool.or_eq_false_iff.1 (not_isNameChar (.inl h))).1

namespace MessageListener

theorem matches_nameRe_iff : nameRe.Matches l g l' g' ↔
    ∃ name, IsName name ∧ l = name ++ l' ∧ g' = Function.update g 1 (some name) := by
  simp only [nameRe, Regex.matches_group_iff, Regex.matches_seq_iff, Regex.matches_set_iff,
    Regex.matches_many_iff]
  constructor
  · rintro ⟨w, g₁, hl, ⟨_, _, ⟨c, hc, rfl, rfl⟩, tail, htail, -, hlen, rfl, rfl⟩, rfl⟩
    obtain rfl : c :: tail = w := List.append_cancel_right (by rw [← hl]; rfl)
    exact ⟨_, ⟨c, tail, rfl, hc, hlen 31 rfl, htail⟩, rfl, rfl⟩
  · rintro ⟨_, ⟨c, tail, rfl, hc, hlen, htail⟩, rfl, rfl⟩
    exact ⟨_, g, rfl, ⟨_, _, ⟨c, hc, rfl, rfl⟩, tail, htail, Nat.zero_le _,
      fun n hn => by cases hn; exact hlen, rfl, rfl⟩, rfl⟩

theorem matches_targetRe_iff : (targetRe U).Matches l g l' g' ↔
    ∃ target : Option (List Char), (∀ t ∈ target, IsTarget U t) ∧
      l = (target.elim [] fun t => '@' :: t) ++ l' ∧
      g' = target.elim g fun t => Function.update g 2 (some t) := by
  simp only [targetRe, Regex.matches_opt_iff, Regex.matches_group_iff, Regex.matches_seq_iff,
    Regex.matches_set_iff, Regex.matches_many_iff, decide_eq_true_eq]
  constructor
  · rintro (⟨_, _, ⟨_, rfl, rfl, rfl⟩, w, _, hl, ⟨t, ht, hlo, -, hl', rfl⟩, rfl⟩ | ⟨rfl, rfl⟩)
    · obtain rfl : t = w := List.append_cancel_right (hl'.symm.trans hl)
      refine ⟨some t, ?_, by rw [hl]; rfl, rfl⟩
      rintro _ ⟨⟩
      exact ⟨List.ne_nil_of_length_pos hlo, ht⟩
    · exact ⟨none, nofun, rfl, rfl⟩
  · rintro ⟨_ | t, ht, rfl, rfl⟩
    · exact .inr ⟨rfl, rfl⟩
    · obtain ⟨hne, ht⟩ := ht t rfl
      exact .inl ⟨_, _, ⟨'@', rfl, rfl, rfl⟩, t, g, rfl,
        ⟨t, ht, List.length_pos_of_ne_nil hne, nofun, rfl, rfl⟩, rfl⟩

theorem matches_endRe (h : endRe.Matches l g l' g') :
    (∀ c ∈ l.head?, isWhitespace c = true) ∧ g' = g := by
  rw [endRe, Regex.matches_alt_iff, Regex.matches_set_iff, Regex.matches_ahead_iff] at h
  rcases h with ⟨c, hc, rfl, rfl⟩ | ⟨h, rfl, rfl⟩
  · refine ⟨?_, rfl⟩
    rintro _ ⟨⟩
    exact hc
  · rcases decide_eq_true_iff.1 h with rfl | rfl
    · exact ⟨nofun, rfl⟩
    · refine ⟨?_, rfl⟩
      rintro _ ⟨⟩
      rfl

theorem exists_matches_endRe (h : ∀ c ∈ l.head?, isWhitespace c = true) :
    ∃ l', endRe.Matches l g l' g := by
  cases l with
  | nil => exact ⟨[], .right (.ahead rfl)⟩
  | cons c l => exact ⟨l, .left (.set (h c rfl))⟩

/-- What the pattern matches begins with a command, which is in the groups. -/
theorem heads_of_matches (h : (commandRe U).Matches text (fun _ => none) l g) :
    Command.Heads U ⟨(g 1).getD [], g 2⟩ text := by
  simp only [commandRe, Regex.matches_seq_iff, Regex.matches_set_iff, decide_eq_true_eq,
    matches_nameRe_iff, matches_targetRe_iff] at h
  obtain ⟨_, _, ⟨_, rfl, rfl, rfl⟩, _, _, ⟨name, hname, rfl, rfl⟩, _, _,
    ⟨target, htarget, rfl, rfl⟩, hend⟩ := h
  obtain ⟨htail, rfl⟩ := matches_endRe hend
  cases target with
  | none => exact ⟨⟨hname, nofun⟩, _, by simp [Command.str, Command.targetStr], htail⟩
  | some t =>
    refine ⟨⟨hname, ?_⟩, _, ?_, htail⟩
    · simpa using htarget
    · simp [Command.str, Command.targetStr]

/-- The pattern matches a text that begins with a command. -/
theorem exists_matches (h : command.Heads U text) :
    ∃ l g, (commandRe U).Matches text (fun _ => none) l g := by
  obtain ⟨hwf, tail, rfl, htail⟩ := h
  obtain ⟨l', hend⟩ := exists_matches_endRe htail (g := command.target.elim _ _)
  exact ⟨_, _, .seq (.set rfl) (.seq (matches_nameRe_iff.2 ⟨_, hwf.name, List.append_assoc .., rfl⟩)
    (.seq ((matches_targetRe_iff U).2 ⟨_, hwf.target, rfl, rfl⟩) hend))⟩

theorem ends_targetStr (htail : ∀ c ∈ tail.head?, isWhitespace c = true) :
    Regex.Ends isNameChar (command.targetStr ++ tail) := by
  intro c hc
  refine not_isNameChar ?_
  rw [Command.targetStr] at hc
  cases ht : command.target with
  | none =>
    rw [ht] at hc
    exact .inl (htail c hc)
  | some t =>
    rw [ht] at hc
    exact .inr (Option.some.inj hc).symm

theorem eq_of_targetStr (hwf : command.WellFormed U) (hwf' : command'.WellFormed U)
    (htail : ∀ c ∈ tail.head?, isWhitespace c = true)
    (htail₂ : ∀ c ∈ tail'.head?, isWhitespace c = true)
    (h : command.targetStr ++ tail = command'.targetStr ++ tail') :
    command.target = command'.target := by
  have hends {tail : List Char} (htail : ∀ c ∈ tail.head?, isWhitespace c = true) :
      Regex.Ends (isWordChar U) tail := fun c hc => not_isWordChar U (htail c hc)
  rw [Command.targetStr, Command.targetStr] at h
  cases ht : command.target with
  | none =>
    cases ht' : command'.target with
    | none => rfl
    | some t' =>
      rw [ht, ht'] at h
      exact absurd (htail '@' (by rw [show tail = _ from h]; rfl)) (by decide)
  | some t =>
    cases ht' : command'.target with
    | none =>
      rw [ht, ht'] at h
      exact absurd (htail₂ '@' (by rw [← show _ = tail' from h]; rfl)) (by decide)
    | some t' =>
      rw [ht, ht'] at h
      exact congrArg some (Regex.eq_of_ends (hwf.target t ht).2 (hwf'.target t' ht').2
        (hends htail) (hends htail₂) (List.cons.inj h).2).1

/-- A text begins with one command. -/
theorem eq_of_heads (h : command.Heads U text) (h' : command'.Heads U text) :
    command = command' := by
  obtain ⟨hwf, tail, rfl, htail⟩ := h
  obtain ⟨hwf', tail', heq, htail'⟩ := h'
  rw [Command.str, Command.str, List.cons_append, List.cons_append, List.append_assoc,
    List.append_assoc] at heq
  obtain ⟨hname, htarget⟩ := Regex.eq_of_ends hwf.name.isNameChar hwf'.name.isNameChar
    (ends_targetStr htail) (ends_targetStr htail') (List.cons.inj heq).2
  exact Command.ext hname (eq_of_targetStr U hwf hwf' htail htail' htarget)

/-- The command of a text is the one it begins with. -/
theorem parseCommand_eq_some_iff : parseCommand U text = some command ↔ command.Heads U text := by
  rw [parseCommand, Option.map_eq_some_iff]
  constructor
  · rintro ⟨m, hm, rfl⟩
    exact heads_of_matches U (Regex.matches_of_firstMatch hm)
  · intro h
    obtain ⟨l, g, hmatch⟩ := exists_matches U h
    obtain ⟨m, hm⟩ := Option.ne_none_iff_exists'.1 fun hn =>
      Regex.firstMatch_eq_none_iff.1 hn l g hmatch
    exact ⟨m, hm, eq_of_heads U (heads_of_matches U (Regex.matches_of_firstMatch hm)) h⟩

example : parseCommand .ascii "/start@My_Bot now".toList =
    some ⟨"start".toList, some "My_Bot".toList⟩ := by decide

example : parseCommand .ascii "/usr/bin".toList = none := by decide

end MessageListener

end Pyroflow
