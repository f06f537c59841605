import Mathlib.Data.Nat.Notation
import Mathlib.Logic.Basic
import Pyroflow.Lib.Lts

/-!
# Systems that come to rest

What becomes of a system when only some of its steps are taken, those that meet a condition
`P`. It *comes to rest* (`Lts.ComesToRest`) when they cannot go on forever, whatever the
schedule, and stop in certain states only: it neither loops nor gets stuck on the way.

* `Lts.ComesToRest.of_measure`: it does when each step makes a measure less, and one can be
  taken as long as it is not at rest.
* `Lts.ComesToRest.exists_run`: it then has a run to a state where it is at rest.
-/

namespace Lts

variable {S L : Type*} {T : Lts S L} {P : S → L → Prop} {Rest : S → Prop} {s s' : S}

/-- A step meeting the condition leads from a state to another. -/
def StepUnder (T : Lts S L) (P : S → L → Prop) (s s' : S) : Prop := ∃ l, P s l ∧ T.step s l s'

theorem RunUnder.head {s'' : S} (h : T.StepUnder P s s') (h' : T.RunUnder P s' s'') :
    T.RunUnder P s s'' := by
  obtain ⟨l, hp, hst⟩ := h
  exact (RunUnder.refl.tail hp hst).trans h'

variable (T P Rest s) in
/-- The steps meeting the condition cannot go on forever, and when none can be taken, the
    system is at rest. -/
structure ComesToRest : Prop where
  ends : Acc (fun s' s => T.StepUnder P s s') s
  rest : ∀ s', T.RunUnder P s s' → (∀ s'', ¬T.StepUnder P s' s'') → Rest s'

theorem ComesToRest.of_measure {I : S → Prop} (f : S → ℕ) (hs : I s)
    (hI : ∀ s s', I s → T.StepUnder P s s' → I s')
    (hless : ∀ s s', I s → T.StepUnder P s s' → f s' < f s)
    (hrest : ∀ s, I s → (∀ s', ¬T.StepUnder P s s') → Rest s) : T.ComesToRest P Rest s where
  ends := by
    induction h : f s using Nat.strongRecOn generalizing s with
    | ind n ih =>
      subst h
      exact .intro s fun s' hst => ih (f s') (hless s s' hs hst) (hI s s' hs hst) rfl
  rest s' hr := hrest s' (hr.invariant hs fun s l s' hi hp hst => hI s s' hi ⟨l, hp, hst⟩)

/-- Some schedule leads to a state where the system is at rest. -/
theorem ComesToRest.exists_run (h : T.ComesToRest P Rest s) : ∃ s', T.RunUnder P s s' ∧ Rest s' := by
  obtain ⟨ends, rest⟩ := h
  induction ends with
  | intro s _ ih =>
    by_cases hstuck : ∀ s', ¬T.StepUnder P s s'
    · exact ⟨s, .refl, rest s .refl hstuck⟩
    · simp only [not_forall, not_not] at hstuck
      obtain ⟨s₁, hst⟩ := hstuck
      obtain ⟨s', hr, hrest⟩ := ih s₁ hst fun s' hr => rest s' (hr.head hst)
      exact ⟨s', hr.head hst, hrest⟩

end Lts
