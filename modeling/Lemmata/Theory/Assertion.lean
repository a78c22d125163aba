import Lemmata.Term.Basic

/-!
# Assertions

An assertion is a labelled axiom or theorem: from its hypotheses its conclusion follows, whatever
terms its variables stand for.
-/

namespace Lemmata

/-- A labelled axiom or theorem. -/
structure Assertion where
  label : String
  hypotheses : List Term
  conclusion : Term
  deriving DecidableEq

namespace Assertion

/-- The variables of the hypotheses and the conclusion, in increasing order. -/
def mandatoryVars (a : Assertion) : List Serial :=
  ((a.conclusion :: a.hypotheses).flatMap Term.vars).eraseDups.mergeSort

/-- For each hypothesis its only variable, if every hypothesis has just one. -/
def hypothesisVars? (a : Assertion) : Option (List Serial) :=
  a.hypotheses.mapM Term.soleVar?

/-- Hypotheses are labelled with their place, counted from one. -/
def hypothesisLabel (a : Assertion) (i : Nat) : String :=
  a.label ++ "." ++ toString (i + 1)

/-- The hypotheses with their labels. -/
def labelledHypotheses (a : Assertion) : List (String × Term) :=
  a.hypotheses.mapIdx fun i t => (a.hypothesisLabel i, t)

end Assertion

end Lemmata
