import Lemmata.Proofs.Term.Substitution
import Lemmata.Proofs.Worksheet.Growth

/-!
# Sound worksheets

A step is correct when its assertion, with terms put for its variables, says what the step says: the
hypotheses become the formulas of the premises, one for one, and the conclusion becomes the formula
of the step. Nothing on a worksheet checks this. A worksheet is sound when all its steps are
correct, and it stays sound when steps are added that are correct where they are added.
-/

namespace Lemmata

namespace Worksheet

/-- The formula holds by the justification: it is a hypothesis, or it and the formulas of the
premises are an instance of the assertion. -/
def Correct (w : Worksheet) (f : Term) : Justification → Prop
  | .hypothesis => True
  | .assertion a premises =>
    ∃ σ : Substitution, σ.Ordered ∧
      premises.map w.formula? = (a.hypotheses.map σ.apply).map some ∧ σ.apply a.conclusion = f

/-- Every step is correct. -/
def Sound (w : Worksheet) : Prop :=
  ∀ i f j, w.step? i = some (f, j) → w.Correct f j

theorem sound_empty : Sound {} := by
  intro i f j h
  cases h

/-- A correct step stays correct when more steps are added. -/
theorem Correct.mono {P : Worksheet → Term → Justification → Prop} {w w' : Worksheet} {f : Term}
    {j : Justification} (h : w.Correct f j) (hext : w.Extends P w') : w'.Correct f j := by
  cases j with
  | hypothesis => trivial
  | assertion a premises =>
    obtain ⟨σ, hσ, hpremises, hf⟩ := h
    exact ⟨σ, hσ, hext.map_formula? hpremises, hf⟩

/-- Correct steps keep a worksheet sound. -/
theorem Sound.extends {w w' : Worksheet} (hw : w.Sound) (h : w.Extends Correct w') : w'.Sound := by
  induction h with
  | refl => exact hw
  | @step u f j _ hnew hstep ih =>
    have hmore : u.Extends Correct (u.append f j) := .step .refl hnew hstep
    intro i g k hi
    rw [step?_append] at hi
    split at hi
    · cases hi
      exact hstep.mono hmore
    · exact (ih i g k hi).mono hmore

end Worksheet

end Lemmata
