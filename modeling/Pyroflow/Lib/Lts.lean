import Mathlib.Logic.Relation

/-!
# Labelled transition systems

A labelled transition system: initial states, and steps carrying a label. Its
runs are finite sequences of steps, and a run is *under* a condition `P` when
every step it takes, from a state `s` with a label `l`, meets `P s l`. The
condition restricts the environment (which steps it may take, and in which
states), never the states reached: the unrestricted runs are those under
`fun _ _ => True`.

* `Lts.ReachableUnder.invariant`: a predicate that holds initially and that the
  steps meeting the condition preserve holds in every state reached under it.
* `Lts.RunUnder.invariant`: the same from any state of a run on.
* `Lts.RunUnder.invariant_of_started`: the same for a part of the system that starts on
  the way.
-/

/-- A labelled transition system on the states `S`, with the labels `L`. -/
structure Lts (S L : Type*) where
  /-- The initial states. -/
  init : S → Prop
  /-- The steps: from a state, with a label, to a state. -/
  step : S → L → S → Prop

namespace Lts

variable {S L : Type*} (T : Lts S L)

/-- The runs whose steps all meet the condition `P`. -/
inductive RunUnder (P : S → L → Prop) : S → S → Prop
  | refl {s : S} : RunUnder P s s
  | tail {s s' s'' : S} {l : L} :
      RunUnder P s s' → P s' l → T.step s' l s'' → RunUnder P s s''

/-- The runs. -/
abbrev Run : S → S → Prop := T.RunUnder fun _ _ => True

/-- The states reached by the runs whose steps all meet the condition `P`. -/
def ReachableUnder (P : S → L → Prop) (s : S) : Prop := ∃ s₀, T.init s₀ ∧ T.RunUnder P s₀ s

/-- The reachable states. -/
abbrev Reachable : S → Prop := T.ReachableUnder fun _ _ => True

variable {T} {P Q : S → L → Prop} {s s' s'' : S} {l : L}

/-- A condition met by more steps allows more runs. -/
theorem RunUnder.mono (hPQ : ∀ s l, P s l → Q s l) (h : T.RunUnder P s s') : T.RunUnder Q s s' := by
  induction h with
  | refl => exact .refl
  | tail _ hp hst ih => exact .tail ih (hPQ _ _ hp) hst

/-- Runs compose. -/
theorem RunUnder.trans (h : T.RunUnder P s s') (h' : T.RunUnder P s' s'') : T.RunUnder P s s'' := by
  induction h' with
  | refl => exact h
  | tail _ hp hst ih => exact .tail ih hp hst

/-- What the steps meeting the condition preserve, the runs under it preserve. -/
theorem RunUnder.invariant {I : S → Prop} (h : T.RunUnder P s s') (hs : I s)
    (hstep : ∀ s l s', I s → P s l → T.step s l s' → I s') : I s' := by
  induction h with
  | refl => exact hs
  | tail _ hp hst ih => exact hstep _ _ _ ih hp hst

/-- A part of the system that has not started, when nothing happens to the memory before
    it does: what holds of it and the memory once it has started, and its steps preserve,
    holds in the end of every run. -/
theorem RunUnder.invariant_of_started {A M : Type*} (part : S → Option A) (mem : S → M)
    {I : A → M → Prop} {a : A} (h : T.RunUnder P s s') (hnew : part s = none)
    (hstart : ∀ s₁ l s₂, part s₁ = none → mem s₁ = mem s → P s₁ l → T.step s₁ l s₂ →
      ∃ a, part s₂ = some a ∧ I a (mem s₂))
    (hstep : ∀ s₁ l s₂ a, part s₁ = some a → I a (mem s₁) → P s₁ l → T.step s₁ l s₂ →
      ∃ a', part s₂ = some a' ∧ I a' (mem s₂)) (ha : part s' = some a) : I a (mem s') := by
  have hinv := h.invariant
    (I := fun s' => part s' = none ∧ mem s' = mem s ∨ ∃ a, part s' = some a ∧ I a (mem s'))
    (.inl ⟨hnew, rfl⟩) (by
    intro s₁ l s₂ ih hp hst
    rcases ih with ⟨hnone, hm⟩ | ⟨a, ha, hi⟩
    · exact .inr (hstart s₁ l s₂ hnone hm hp hst)
    · exact .inr (hstep s₁ l s₂ a ha hi hp hst))
  rcases hinv with ⟨hnone, _⟩ | ⟨a', ha', hi⟩
  · exact absurd (hnone.symm.trans ha) nofun
  · exact Option.some.inj (ha'.symm.trans ha) ▸ hi

/-- An initial state is reached by the empty run. -/
theorem ReachableUnder.init (h : T.init s) : T.ReachableUnder P s := ⟨s, h, .refl⟩

/-- A step meeting the condition, taken from a state reached under it. -/
theorem ReachableUnder.tail (h : T.ReachableUnder P s) (hp : P s l) (hst : T.step s l s') :
    T.ReachableUnder P s' :=
  let ⟨s₀, h₀, hr⟩ := h
  ⟨s₀, h₀, .tail hr hp hst⟩

/-- A run under the condition, taken from a state reached under it. -/
theorem ReachableUnder.run (h : T.ReachableUnder P s) (hr : T.RunUnder P s s') :
    T.ReachableUnder P s' :=
  let ⟨s₀, h₀, hr₀⟩ := h
  ⟨s₀, h₀, hr₀.trans hr⟩

theorem ReachableUnder.mono (hPQ : ∀ s l, P s l → Q s l) (h : T.ReachableUnder P s) :
    T.ReachableUnder Q s :=
  let ⟨s₀, h₀, hr⟩ := h
  ⟨s₀, h₀, hr.mono hPQ⟩

/-- States reached under a condition are reachable. -/
theorem ReachableUnder.reachable (h : T.ReachableUnder P s) : T.Reachable s :=
  h.mono fun _ _ _ => trivial

/-- An inductive invariant holds in every state reached: initially, and after
    every step meeting the condition from a state where it holds. -/
theorem ReachableUnder.invariant {I : S → Prop} (h : T.ReachableUnder P s)
    (hinit : ∀ s, T.init s → I s) (hstep : ∀ s l s', I s → P s l → T.step s l s' → I s') : I s :=
  let ⟨_, h₀, hr⟩ := h
  hr.invariant (hinit _ h₀) hstep

/-- An invariant may use what is known of all reachable states: it needs to be
    preserved by the steps from reachable states only. -/
theorem ReachableUnder.invariant_of_reachable {I : S → Prop} (h : T.ReachableUnder P s)
    (hinit : ∀ s, T.init s → I s)
    (hstep : ∀ s l s', T.ReachableUnder P s → I s → P s l → T.step s l s' → I s') : I s := by
  obtain ⟨s₀, h₀, hr⟩ := h
  induction hr with
  | refl => exact hinit _ h₀
  | tail hr hp hst ih => exact hstep _ _ _ ⟨s₀, h₀, hr⟩ ih hp hst

/-- A condition that the steps meeting another one meet, from the states reached under that. -/
theorem ReachableUnder.mono_of_reachable (h : T.ReachableUnder P s)
    (hPQ : ∀ s l, T.ReachableUnder P s → P s l → Q s l) : T.ReachableUnder Q s := by
  obtain ⟨s₀, h₀, hr⟩ := h
  induction hr with
  | refl => exact .init h₀
  | tail hr hp hst ih => exact ih.tail (hPQ _ _ ⟨s₀, h₀, hr⟩ hp) hst

end Lts
