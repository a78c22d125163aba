/-!
# Why an assertion is no rule

Recognising a rule either yields it or one of these reasons. Most assertions of a theory are
skipped, so a reason is no error. Hypotheses and arguments are counted from zero.
-/

namespace Lemmata

/-- Why an assertion is not the rule that was looked for. -/
inductive Skip where
  | noHypotheses
  /-- A pure closure rule has one hypothesis for each variable. -/
  | hypothesisCount (hypotheses vars : Nat)
  /-- Some hypothesis mentions no variable, or more than one. -/
  | hypothesisVariables
  /-- The first hypothesis does not state a property of its variable. -/
  | noTemplate
  /-- This hypothesis does not state the property of the first about its own variable. -/
  | inconsistentHypothesis (i : Nat)
  /-- The conclusion does not state the property about an application. -/
  | conclusionMismatch
  /-- This argument is neither a variable nor constant. -/
  | nestedVariable (i : Nat)
  /-- No hypothesis is left for the variable at this argument. -/
  | unmatchedVariable (i : Nat)
  | incorrectOrder
  | unusedHypothesis
  /-- An earlier assertion states the same rule. -/
  | duplicate
  /-- An implication closure rule has no hypotheses. -/
  | hasHypotheses
  | notImplication
  /-- The conclusion has this depth. -/
  | depth (d : Nat)
  /-- The assertion states neither symmetry nor transitivity. -/
  | notEquivalenceLemma
  deriving DecidableEq

def Skip.message : Skip → String
  | noHypotheses => "no hypotheses"
  | hypothesisCount h v => s!"{h} hypotheses for {v} variables"
  | hypothesisVariables => "a hypothesis does not have exactly one variable"
  | noTemplate => "no single-hole template"
  | inconsistentHypothesis i => s!"hypothesis {i} does not match the template"
  | conclusionMismatch => "conclusion does not match the template"
  | nestedVariable i => s!"argument {i} nests a variable"
  | unmatchedVariable i => s!"argument {i} has no matching hypothesis"
  | incorrectOrder => "arguments are out of hypothesis order"
  | unusedHypothesis => "a hypothesis is unused"
  | duplicate => "duplicate rule"
  | hasHypotheses => "has separate hypotheses"
  | notImplication => "not an implication"
  | depth d => s!"depth {d}"
  | notEquivalenceLemma => "not an equivalence lemma"

end Lemmata
