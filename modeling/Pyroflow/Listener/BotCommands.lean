import Pyroflow.Lib.Lts
import Pyroflow.Lib.WeakTable
import Pyroflow.Listener.Bypass

/-!
# Bot commands

The calls of `MessageListener._is_bypass`, of one listener, in progress at the same time. A call
that finds a command in its update which is not for another bot looks its name up among the
commands of the bot. These are asked for with `client.get_bot_commands()`, and kept by
`id(client)` until the listener is stopped or the client dies (`_bot_commands_cache`); the ids are
used again.

What is kept of a client was answered by this client (`Sound`), and so a call that returns has
looked the name up in what its own client has answered (`isBypass_eq_iff`). As long as the
listener is not stopped, a client that has answered is not asked again, and calls that neither
overlap nor are cancelled ask once (`asked_le`).
-/

namespace Pyroflow

open MessageListener

variable (U : Unicode)

/-! ### The calls -/

/-- `client.me`, as far as it is read: the user names. -/
structure Me where
  username : Option (List Char)
  usernames : Option (List (List Char))
  deriving DecidableEq, Repr

namespace MessageListener

/-- The user names of a bot. -/
def usernames (me : Option Me) : List (List Char) :=
  (me.bind Me.username).toList ++ (me.bind Me.usernames).getD []

/-- `me_usernames`: the first one is empty when there is none. -/
def meUsernames (me : Option Me) : List (List Char) :=
  U.lower ((me.bind Me.username).getD []) :: ((me.bind Me.usernames).getD []).map U.lower

/-- `update.text or update.caption or ""`. -/
def textOf (text caption : Option (List Char)) : List Char :=
  ((text.filter (· ≠ [])).or caption).getD []

/-- `_is_bypass`, up to its call of `_get_bot_commands`: the name it looks up, or `none` when it
    returns `False`. -/
def commandName (me : Option Me) (text : List Char) : Option (List Char) :=
  (parseCommand U text).bind fun command =>
    if command.target.all fun target => (meUsernames U me).contains (U.lower target)
    then some (U.lower command.name)
    else none

/-- The names in the answer of `get_bot_commands`, if it has not raised. -/
def commandNames (answer : Option (List (List Char))) : List (List Char) :=
  (answer.getD []).map U.lower

end MessageListener

/-- Where a call of `_is_bypass` is: it waits for the commands, or has ended. -/
inductive BypassPc
  | fetching (name : List Char)
  | returned (answer : Bool)
  | raised
  deriving DecidableEq

/-- A call of `_is_bypass`: the client of the update and where it lives, and what was read of it
    and of the update. -/
structure BypassCall (A : Type) where
  address : A
  client : ℕ
  me : Option Me
  text : List Char
  pc : BypassPc

/-- The clients and `_bot_commands_cache`, and the calls; what the clients have answered, and how
    often each has been asked. -/
structure BypassState (A : Type) where
  cache : WeakTable A (List (List Char)) := {}
  calls : ℕ → Option (BypassCall A) := fun _ => none
  answers : List (ℕ × Option (List (List Char))) := []
  asked : ℕ → ℕ := fun _ => 0

/-- What happens: a client is made or dies, a call begins, for an update of the client at an
    address, its client answers or raises, or it is cancelled, or the listener is stopped. -/
inductive BypassLabel (A : Type)
  | make (a : A)
  | die (a : A)
  | start (r : ℕ) (a : A) (me : Option Me) (text caption : Option (List Char))
  | answered (r : ℕ) (answer : Option (List (List Char)))
  | interrupt (r : ℕ)
  | stop

namespace BypassState

variable {A : Type} [DecidableEq A]

/-- A call goes on. -/
def setCall (s : BypassState A) (r : ℕ) (call : BypassCall A) : BypassState A :=
  { s with calls := Function.update s.calls r (some call) }

/-- A call begins, and goes on until it waits for the commands or returns. -/
def begin (s : BypassState A) (r : ℕ) (a : A) (client : ℕ) (me : Option Me) (text : List Char) :
    BypassState A :=
  match commandName U me text with
  | none => s.setCall r ⟨a, client, me, text, .returned false⟩
  | some name =>
    match s.cache.values a with
    | some commands => s.setCall r ⟨a, client, me, text, .returned (commands.contains name)⟩
    | none =>
      { s.setCall r ⟨a, client, me, text, .fetching name⟩ with
        asked := Function.update s.asked client (s.asked client + 1) }

/-- The client has answered a call, or raised. -/
def finish (s : BypassState A) (r : ℕ) (call : BypassCall A) (name : List Char)
    (answer : Option (List (List Char))) : BypassState A :=
  { s.setCall r { call with pc := .returned ((commandNames U answer).contains name) } with
    cache := s.cache.store call.address (commandNames U answer) call.client
    answers := s.answers ++ [(call.client, answer)] }

/-- The steps. -/
inductive Step : BypassState A → BypassLabel A → BypassState A → Prop
  | make {s a} (free : s.cache.objects a = none) :
      Step s (.make a) { s with cache := s.cache.make a }
  | start {s r a client me text caption} (new : s.calls r = none)
      (lives : s.cache.objects a = some client) :
      Step s (.start r a me text caption) (s.begin U r a client me (textOf text caption))
  | answered {s r call name answer} (found : s.calls r = some call) (pc : call.pc = .fetching name) :
      Step s (.answered r answer) (s.finish U r call name answer)
  | interrupt {s r call name} (found : s.calls r = some call) (pc : call.pc = .fetching name) :
      Step s (.interrupt r) (s.setCall r { call with pc := .raised })
  /-- No call in progress refers to the client. -/
  | die {s a client} (lives : s.cache.objects a = some client)
      (unheld : ∀ r call name, s.calls r = some call → call.pc = .fetching name →
        call.client ≠ client) :
      Step s (.die a) { s with cache := s.cache.die a client }
  | stop {s} : Step s .stop { s with cache := s.cache.clear }

end BypassState

/-- The calls of `_is_bypass` of one listener. -/
def bypassLts (A : Type) [DecidableEq A] : Lts (BypassState A) (BypassLabel A) where
  init s := s = {}
  step := BypassState.Step U

/-! ### What is looked up -/

namespace MessageListener

variable {U} {me : Option Me} {target text name : List Char}

theorem mem_meUsernames (h : target ≠ []) : U.lower target ∈ meUsernames U me ↔
    ∃ username ∈ usernames me, U.lower username = U.lower target := by
  have hne : U.lower target ≠ U.lower [] := by
    rw [U.lower_nil]
    exact U.lower_ne_nil target h
  cases hu : me.bind Me.username with
  | none => simp [meUsernames, usernames, hu, hne]
  | some username => simp [meUsernames, usernames, hu, eq_comm]

/-- The update has a command for the bot. -/
def Addressed (U : Unicode) (me : Option Me) (text : List Char) (command : Command) : Prop :=
  command.Heads U text ∧
    ∀ target ∈ command.target, ∃ username ∈ usernames me, U.lower username = U.lower target

/-- The name looked up is the one of the command for the bot. -/
theorem commandName_eq_some_iff : commandName U me text = some name ↔
    ∃ command, Addressed U me text command ∧ U.lower command.name = name := by
  rw [commandName, Option.bind_eq_some_iff]
  refine exists_congr fun command => ?_
  rw [parseCommand_eq_some_iff, Addressed, and_assoc]
  refine and_congr_right fun hheads => ?_
  have hall : (command.target.all fun target =>
      (meUsernames U me).contains (U.lower target)) = true ↔
      ∀ target ∈ command.target, ∃ username ∈ usernames me, U.lower username = U.lower target := by
    cases ht : command.target with
    | none => simp
    | some target =>
      simpa using mem_meUsernames (hheads.1.target target ht).1
  rw [← hall, Option.ite_none_right_eq_some, Option.some_inj]

end MessageListener

/-! ### What a call has looked it up in -/

section Sound

variable {A : Type} {s s' : BypassState A} {l : BypassLabel A} {call : BypassCall A} {r : ℕ}

variable (call) in
/-- A call that has returned found no command for the bot, or looked its name up in an answer of
    its client. -/
def BypassCall.Answered (answers : List (ℕ × Option (List (List Char)))) (b : Bool) : Prop :=
  match commandName U call.me call.text with
  | none => b = false
  | some name => ∃ answer, (call.client, answer) ∈ answers ∧
      b = (commandNames U answer).contains name

variable (s) in
/-- What is kept of a client was answered by it; so was what a call has looked a name up in. -/
structure BypassState.Sound : Prop where
  cache : s.cache.Sound fun client commands =>
    ∃ answer, (client, answer) ∈ s.answers ∧ commands = commandNames U answer
  fetching : ∀ r call name, s.calls r = some call → call.pc = .fetching name →
    s.cache.objects call.address = some call.client ∧
      commandName U call.me call.text = some name
  returned : ∀ r call b, s.calls r = some call → call.pc = .returned b →
    call.Answered U s.answers b

variable {U}

theorem BypassCall.Answered.mono {answers answers' : List (ℕ × Option (List (List Char)))}
    {b : Bool} (h : call.Answered U answers b) (hsub : answers ⊆ answers') :
    call.Answered U answers' b := by
  rw [Answered] at h ⊢
  split at h
  case h_1 => exact h
  case h_2 name hname =>
    obtain ⟨answer, hmem, hb⟩ := h
    exact ⟨answer, hsub hmem, hb⟩

theorem BypassCall.answered_of_none {answers : List (ℕ × Option (List (List Char)))}
    (h : commandName U call.me call.text = none) : call.Answered U answers false := by
  rw [Answered, h]

theorem BypassCall.answered_of_some {answers : List (ℕ × Option (List (List Char)))}
    {name : List Char} {answer : Option (List (List Char))}
    (h : commandName U call.me call.text = some name) (hmem : (call.client, answer) ∈ answers) :
    call.Answered U answers ((commandNames U answer).contains name) := by
  rw [Answered, h]
  exact ⟨answer, hmem, rfl⟩

namespace BypassState

theorem calls_setCall {r' : ℕ} {call' : BypassCall A}
    (h : (s.setCall r call).calls r' = some call') :
    r' = r ∧ call' = call ∨ r' ≠ r ∧ s.calls r' = some call' := by
  change Function.update s.calls r (some call) r' = some call' at h
  by_cases hr : r' = r
  · rw [hr, Function.update_self] at h
    exact .inl ⟨hr, (Option.some.inj h).symm⟩
  · rw [Function.update_of_ne hr] at h
    exact .inr ⟨hr, h⟩

/-- A call comes to a point that fits. -/
theorem Sound.setCall (hs : s.Sound U)
    (hf : ∀ name, call.pc = .fetching name → s.cache.objects call.address = some call.client ∧
      commandName U call.me call.text = some name)
    (hr : ∀ b, call.pc = .returned b → call.Answered U s.answers b) :
    (s.setCall r call).Sound U := by
  refine ⟨hs.cache, fun r' call' name hc hpc => ?_, fun r' call' b hc hpc => ?_⟩
  · rcases calls_setCall hc with ⟨-, rfl⟩ | ⟨-, hc⟩
    · exact hf name hpc
    · exact hs.fetching r' call' name hc hpc
  · rcases calls_setCall hc with ⟨-, rfl⟩ | ⟨-, hc⟩
    · exact hr b hpc
    · exact hs.returned r' call' b hc hpc

variable {a : A} {client : ℕ} {me : Option Me} {text name : List Char}

variable (U s r a client me text) in
/-- How a call begins: it has nothing to look up, looks it up in what is kept, or asks. -/
theorem begin_cases :
    commandName U me text = none ∧
        s.begin U r a client me text = s.setCall r ⟨a, client, me, text, .returned false⟩ ∨
      ∃ name, commandName U me text = some name ∧
        ((∃ commands, s.cache.values a = some commands ∧ s.begin U r a client me text =
            s.setCall r ⟨a, client, me, text, .returned (commands.contains name)⟩) ∨
          s.cache.values a = none ∧ s.begin U r a client me text =
            { s.setCall r ⟨a, client, me, text, .fetching name⟩ with
              asked := Function.update s.asked client (s.asked client + 1) }) := by
  rw [begin]
  split
  case h_1 hname => exact .inl ⟨hname, rfl⟩
  case h_2 name hname =>
    refine .inr ⟨name, hname, ?_⟩
    split
    case h_1 commands hcached => exact .inl ⟨commands, hcached, rfl⟩
    case h_2 hcached => exact .inr ⟨hcached, rfl⟩

theorem Sound.begin (hs : s.Sound U) (hlives : s.cache.objects a = some client) :
    (s.begin U r a client me text).Sound U := by
  rcases begin_cases U s r a client me text with
    ⟨hname, h⟩ | ⟨name, hname, ⟨commands, hcached, h⟩ | ⟨-, h⟩⟩ <;> rw [h]
  · refine hs.setCall nofun ?_
    rintro _ ⟨⟩
    exact BypassCall.answered_of_none hname
  · refine hs.setCall nofun ?_
    rintro _ ⟨⟩
    obtain ⟨answer, hmem, rfl⟩ := hs.cache.of_values hlives hcached
    exact BypassCall.answered_of_some hname hmem
  · have hcall : (s.setCall r ⟨a, client, me, text, .fetching name⟩).Sound U := by
      refine hs.setCall ?_ nofun
      rintro _ ⟨⟩
      exact ⟨hlives, hname⟩
    exact ⟨hcall.cache, hcall.fetching, hcall.returned⟩

variable [DecidableEq A]

theorem Sound.finish {answer : Option (List (List Char))} (hs : s.Sound U)
    (hc : s.calls r = some call) (hpc : call.pc = .fetching name) :
    (s.finish U r call name answer).Sound U := by
  obtain ⟨hlives, hname⟩ := hs.fetching r call name hc hpc
  -- The answer is there before the call returns.
  have hs' : BypassState.Sound U { s with
      cache := s.cache.store call.address (commandNames U answer) call.client
      answers := s.answers ++ [(call.client, answer)] } := by
    have hcache : s.cache.Sound fun client commands => ∃ answer',
        (client, answer') ∈ s.answers ++ [(call.client, answer)] ∧
          commands = commandNames U answer' := by
      refine hs.cache.mono ?_
      rintro client commands ⟨answer', hmem, h⟩
      exact ⟨answer', List.mem_append_left _ hmem, h⟩
    refine ⟨hcache.store hlives ⟨answer, by simp, rfl⟩, hs.fetching, fun r' call' b hc' hpc' => ?_⟩
    exact (hs.returned r' call' b hc' hpc').mono (List.subset_append_left _ _)
  refine hs'.setCall (r := r) nofun ?_
  rintro _ ⟨⟩
  exact BypassCall.answered_of_some hname
    (List.mem_append_right _ List.mem_cons_self)

/-- The steps keep what is known of the answers. -/
theorem Step.sound (hst : Step U s l s') (hs : s.Sound U) : s'.Sound U := by
  cases hst with
  | @make a free =>
    refine ⟨hs.cache.make free, fun r call name hc hpc => ?_, hs.returned⟩
    obtain ⟨hlives, hname⟩ := hs.fetching r call name hc hpc
    have ha : call.address ≠ a := by
      intro ha
      rw [ha, free] at hlives
      cases hlives
    exact ⟨by rwa [WeakTable.make_objects, Function.update_of_ne ha], hname⟩
  | start new lives => exact hs.begin lives
  | answered found pc => exact hs.finish found pc
  | interrupt found pc => exact hs.setCall nofun nofun
  | @die a client lives unheld =>
    refine ⟨hs.cache.die lives, fun r call name hc hpc => ?_, hs.returned⟩
    obtain ⟨hlives, hname⟩ := hs.fetching r call name hc hpc
    have ha : call.address ≠ a := by
      intro ha
      rw [ha, lives] at hlives
      exact unheld r call name hc hpc (Option.some.inj hlives).symm
    exact ⟨by rwa [WeakTable.die_objects, Function.update_of_ne ha], hname⟩
  | stop => exact ⟨hs.cache.clear, hs.fetching, hs.returned⟩

theorem sound_of_reachable (h : (bypassLts U A).Reachable s) : s.Sound U := by
  refine h.invariant (I := fun s => s.Sound U) ?_ fun _ _ _ hs _ hst => Step.sound hst hs
  rintro _ rfl
  exact ⟨.new, nofun, nofun⟩

end BypassState

variable [DecidableEq A]

/-- A call that has returned found no command in its update that was for the bot, or tells whether
    the name of the command is one its own client has answered, wherever other clients lived. -/
theorem isBypass_eq_iff {b : Bool} (h : (bypassLts U A).Reachable s) (hc : s.calls r = some call)
    (hpc : call.pc = .returned b) :
    (∀ command, ¬Addressed U call.me call.text command) ∧ b = false ∨
      ∃ command answer, Addressed U call.me call.text command ∧ (call.client, answer) ∈ s.answers ∧
        (b = true ↔ ∃ c ∈ answer.getD [], U.lower c = U.lower command.name) := by
  have hb := (BypassState.sound_of_reachable h).returned r call b hc hpc
  rw [BypassCall.Answered] at hb
  split at hb
  case h_1 hname =>
    refine .inl ⟨fun command haddressed => ?_, hb⟩
    cases hname.symm.trans (commandName_eq_some_iff.2 ⟨command, haddressed, rfl⟩)
  case h_2 name hname =>
    obtain ⟨command, haddressed, rfl⟩ := commandName_eq_some_iff.1 hname
    obtain ⟨answer, hmem, rfl⟩ := hb
    refine .inr ⟨command, answer, haddressed, hmem, ?_⟩
    rw [List.contains_iff_mem, commandNames, List.mem_map]

/-- A client has answered, and died; the one that lives at its address then answers for itself. -/
theorem isBypass_eq_iff_start : ∃ (s : BypassState Unit) (call : BypassCall Unit),
    (bypassLts .ascii Unit).Reachable s ∧ s.answers.map Prod.fst = [0, 1] ∧
    s.calls 1 = some call ∧ call.client = 1 ∧ call.pc = .returned true ∧
      ((∀ command, ¬Addressed .ascii call.me call.text command) ∧ true = false ∨
        ∃ command answer, Addressed .ascii call.me call.text command ∧
          (call.client, answer) ∈ s.answers ∧
          (true = true ↔ ∃ c ∈ answer.getD [],
            Unicode.ascii.lower c = Unicode.ascii.lower command.name)) := by
  have h₀ : (bypassLts .ascii Unit).Reachable {} := .init rfl
  have h₁ := h₀.tail (l := BypassLabel.make ()) trivial (.make rfl)
  have h₂ := h₁.tail (l := BypassLabel.start 0 () none (some ['/', 's']) none) trivial (.start rfl rfl)
  have h₃ := h₂.tail (l := BypassLabel.answered 0 (some [['s']])) trivial (.answered rfl rfl)
  -- No call in progress refers to the first client.
  have h₄ := h₃.tail (l := BypassLabel.die ()) trivial (.die rfl fun r call name hc hpc => by
    rcases BypassState.calls_setCall hc with ⟨-, rfl⟩ | ⟨hr, hc⟩
    · cases hpc
    · exact absurd ((Function.update_of_ne hr _ fun _ => none).symm.trans hc) nofun)
  have h₅ := h₄.tail (l := BypassLabel.make ()) trivial (.make rfl)
  have h₆ := h₅.tail (l := BypassLabel.start 1 () none (some ['/', 't']) none) trivial (.start rfl rfl)
  have h₇ := h₆.tail (l := BypassLabel.answered 1 (some [['t']])) trivial (.answered rfl rfl)
  exact ⟨_, _, h₇, rfl, rfl, rfl, rfl, isBypass_eq_iff h₇ (r := 1) rfl rfl⟩

end Sound

/-! ### How often a client is asked -/

section Asked

variable {A : Type} {a : A} {s s' : BypassState A} {l : BypassLabel A} {call : BypassCall A}
  {client r : ℕ}

variable (a) in
/-- The listener is not stopped, and the client at the address does not die. -/
def BypassLabel.Keeps : BypassLabel A → Prop
  | .stop => False
  | .die a' => a' ≠ a
  | _ => True

namespace BypassState

variable (s a) in
/-- A call waits for the commands of the client at the address. -/
def Fetching : Prop :=
  ∃ r call name, s.calls r = some call ∧ call.address = a ∧ call.pc = .fetching name

variable (a) in
/-- The calls for the client at the address do not overlap, and are not cancelled. -/
def OneByOne (s : BypassState A) (l : BypassLabel A) : Prop :=
  l.Keeps a ∧ (∀ r me text caption, l = .start r a me text caption → ¬s.Fetching a) ∧
    ∀ r call, l = .interrupt r → s.calls r = some call → call.address ≠ a

/-- A call that waits for other commands, or none, comes to such a point. -/
theorem fetching_setCall
    (hold : ∀ call' name, s.calls r = some call' → call'.address = a → call'.pc ≠ .fetching name)
    (hnew : ∀ name, call.address = a → call.pc ≠ .fetching name) :
    (s.setCall r call).Fetching a ↔ s.Fetching a := by
  constructor
  · rintro ⟨r', call', name, hc, ha, hpc⟩
    rcases calls_setCall hc with ⟨-, rfl⟩ | ⟨-, hc⟩
    · exact absurd hpc (hnew name ha)
    · exact ⟨r', call', name, hc, ha, hpc⟩
  · rintro ⟨r', call', name, hc, ha, hpc⟩
    have hr : r' ≠ r := by
      rintro rfl
      exact hold call' name hc ha hpc
    exact ⟨r', call', name, (Function.update_of_ne hr ..).trans hc, ha, hpc⟩

variable [DecidableEq A]

/-- What a step does to the client at an address that it keeps there. -/
structure Effect (a : A) (client : ℕ) (l : BypassLabel A) (s s' : BypassState A) : Prop where
  lives : s'.cache.objects a = some client
  kept : s.cache.values a ≠ none → s'.cache.values a ≠ none
  cases : s'.asked client = s.asked client ∧ (s'.Fetching a ↔ s.Fetching a) ∨
    -- A call begins, and asks.
    (∃ r me text caption, l = .start r a me text caption) ∧ s.cache.values a = none ∧
      s'.asked client = s.asked client + 1 ∧ s'.Fetching a ∨
    -- The client answers.
    s'.asked client = s.asked client ∧ s'.cache.values a ≠ none ∧ s.Fetching a ∨
    -- A call is cancelled.
    s'.asked client = s.asked client ∧ ∃ r call, l = .interrupt r ∧ s.calls r = some call ∧
      call.address = a

theorem effect_begin {a' : A} {client' : ℕ} {me : Option Me} {text caption : Option (List Char)}
    (hs : s.Sound U) (hlives : s.cache.objects a = some client)
    (hlives' : s.cache.objects a' = some client') (hnew : s.calls r = none) :
    Effect a client (.start r a' me text caption) s
      (s.begin U r a' client' me (textOf text caption)) := by
  have hold {call' : BypassCall A} {name : List Char} (h : s.calls r = some call') :
      call'.address = a → call'.pc ≠ .fetching name := by
    rw [hnew] at h
    cases h
  rcases begin_cases U s r a' client' me (textOf text caption) with
    ⟨-, h⟩ | ⟨name, -, ⟨commands, -, h⟩ | ⟨hcached, h⟩⟩ <;> rw [h]
  · exact ⟨hlives, id, .inl ⟨rfl, fetching_setCall (fun _ _ => hold) nofun⟩⟩
  · exact ⟨hlives, id, .inl ⟨rfl, fetching_setCall (fun _ _ => hold) nofun⟩⟩
  · by_cases ha : a' = a
    · subst ha
      obtain rfl := Option.some.inj (hlives.symm.trans hlives')
      refine ⟨hlives, id, .inr (.inl ⟨⟨r, me, text, caption, rfl⟩, hcached, ?_, ?_⟩)⟩
      · exact Function.update_self ..
      · exact ⟨r, _, name, Function.update_self .., rfl, rfl⟩
    · refine ⟨hlives, id, .inl ⟨?_, ?_⟩⟩
      · exact Function.update_of_ne (hs.cache.ne hlives hlives' (Ne.symm ha)) ..
      · exact fetching_setCall (fun _ _ => hold) fun _ h => absurd h ha

theorem Step.effect (hst : Step U s l s') (hs : s.Sound U)
    (hlives : s.cache.objects a = some client) (hkeep : l.Keeps a) : Effect a client l s s' := by
  cases hst with
  | @make a' free =>
    have ha : a ≠ a' := by
      rintro rfl
      rw [free] at hlives
      cases hlives
    exact ⟨(Function.update_of_ne ha ..).trans hlives, id, .inl ⟨rfl, .rfl⟩⟩
  | start new lives => exact effect_begin U hs hlives lives new
  | @answered r call name answer found pc =>
    by_cases ha : call.address = a
    · have hvalues : (s.cache.store call.address (commandNames U answer) call.client).values a ≠
          none := by
        rw [ha, WeakTable.store_values, Function.update_self]
        exact Option.some_ne_none _
      exact ⟨hlives, fun _ => hvalues, .inr (.inr (.inl ⟨rfl, hvalues, r, call, name, found, ha, pc⟩))⟩
    · refine ⟨hlives, fun hkept => ?_, .inl ⟨rfl, ?_⟩⟩
      · exact (Function.update_of_ne (Ne.symm ha) ..).trans_ne hkept
      · refine fetching_setCall (fun call' _ hc ha' => ?_) nofun
        exact absurd (Option.some.inj (found.symm.trans hc) ▸ ha') ha
  | @interrupt r call name found pc =>
    by_cases ha : call.address = a
    · exact ⟨hlives, id, .inr (.inr (.inr ⟨rfl, r, call, rfl, found, ha⟩))⟩
    · refine ⟨hlives, id, .inl ⟨rfl, ?_⟩⟩
      refine fetching_setCall (fun call' _ hc ha' => ?_) nofun
      exact absurd (Option.some.inj (found.symm.trans hc) ▸ ha') ha
  | @die a' client' lives unheld =>
    have ha : a ≠ a' := Ne.symm hkeep
    refine ⟨(Function.update_of_ne ha ..).trans hlives, fun hkept => ?_, .inl ⟨rfl, .rfl⟩⟩
    exact (WeakTable.die_values_of_ne _ _ ha).trans_ne hkept
  | stop => exact hkeep.elim

end BypassState

open BypassState

variable [DecidableEq A]

/-- As long as the listener is not stopped, a client that lives is asked no more once its answer
    is kept, whatever calls there are; and, if no call is fetching, it is asked once more at most
    by calls that do not overlap and are not cancelled. -/
theorem asked_le (h : (bypassLts U A).Reachable s) (hlives : s.cache.objects a = some client) :
    (s.cache.values a ≠ none → ∀ s', (bypassLts U A).RunUnder (fun _ l => l.Keeps a) s s' →
      s'.asked client = s.asked client) ∧
    (¬s.Fetching a → ∀ s', (bypassLts U A).RunUnder (OneByOne a) s s' →
      s'.asked client ≤ s.asked client + 1) := by
  have hs := sound_of_reachable h
  refine ⟨fun hkept s' hrun => ?_, fun hquiet s' hrun => ?_⟩
  · have hinv := hrun.invariant (I := fun s' => s'.Sound U ∧ s'.cache.objects a = some client ∧
      s'.cache.values a ≠ none ∧ s'.asked client = s.asked client) ⟨hs, hlives, hkept, rfl⟩ ?_
    · exact hinv.2.2.2
    · rintro s₁ l s₂ ⟨hs₁, hlives₁, hkept₁, hasked⟩ hkeeps hst
      have heffect := Step.effect U hst hs₁ hlives₁ hkeeps
      refine ⟨Step.sound hst hs₁, heffect.lives, heffect.kept hkept₁, ?_⟩
      rcases heffect.cases with ⟨h, -⟩ | ⟨-, hnone, -⟩ | ⟨h, -⟩ | ⟨h, -⟩
      · exact h.trans hasked
      · exact absurd hnone hkept₁
      · exact h.trans hasked
      · exact h.trans hasked
  · -- Nobody waits, or the client has been asked, and somebody waits or its answer is kept.
    have hinv := hrun.invariant (I := fun s' => s'.Sound U ∧ s'.cache.objects a = some client ∧
      (s'.asked client = s.asked client ∧ ¬s'.Fetching a ∨
        s'.asked client = s.asked client + 1 ∧ (s'.Fetching a ∨ s'.cache.values a ≠ none)))
      ⟨hs, hlives, .inl ⟨rfl, hquiet⟩⟩ ?_
    · rcases hinv.2.2 with ⟨h, -⟩ | ⟨h, -⟩ <;> omega
    · rintro s₁ l s₂ ⟨hs₁, hlives₁, hphase⟩ ⟨hkeeps, hstart, hinterrupt⟩ hst
      have heffect := Step.effect U hst hs₁ hlives₁ hkeeps
      refine ⟨Step.sound hst hs₁, heffect.lives, ?_⟩
      rcases heffect.cases with ⟨hasked, hiff⟩ | ⟨⟨r, me, text, caption, rfl⟩, hnone, hasked, hf⟩ |
        ⟨hasked, hvalues, hf⟩ | ⟨-, r, call, rfl, hc, ha⟩
      · rw [hasked, hiff]
        exact hphase.imp_right fun h => ⟨h.1, h.2.imp_right heffect.kept⟩
      · rcases hphase with ⟨h, -⟩ | ⟨-, hf' | hvalues⟩
        · exact .inr ⟨by rw [hasked, h], .inl hf⟩
        · exact absurd hf' (hstart r me text caption rfl)
        · exact absurd hnone hvalues
      · rcases hphase with ⟨-, hquiet⟩ | ⟨h, -⟩
        · exact absurd hf hquiet
        · exact .inr ⟨hasked.trans h, .inr hvalues⟩
      · exact absurd ha (hinterrupt r call rfl hc)

theorem asked_le_once : ∃ s : BypassState Unit, (bypassLts .ascii Unit).Reachable s ∧
    s.cache.objects () = some 0 ∧ ¬s.Fetching () ∧
    ((s.cache.values () ≠ none → ∀ s', (bypassLts .ascii Unit).RunUnder (fun _ l => l.Keeps ()) s s' →
      s'.asked 0 = s.asked 0) ∧
    (¬s.Fetching () → ∀ s', (bypassLts .ascii Unit).RunUnder (OneByOne ()) s s' →
      s'.asked 0 ≤ s.asked 0 + 1)) := by
  have h₀ : (bypassLts .ascii Unit).Reachable {} := .init rfl
  have h₁ := h₀.tail (l := BypassLabel.make ()) trivial (.make rfl)
  refine ⟨_, h₁, rfl, ?_, asked_le .ascii h₁ rfl⟩
  rintro ⟨_, _, _, hc, _⟩
  cases hc

end Asked

end Pyroflow
