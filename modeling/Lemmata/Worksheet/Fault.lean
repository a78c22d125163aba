import Lemmata.Closure.Schema

/-!
# Faults

What stops the making of proof steps. A fault reports a call that could not be carried out; the
steps that were made before it stay on the worksheet. Messages count steps from one and show terms
in the numbered spelling.
-/

namespace Lemmata

/-- The number of a step on a worksheet, counted from zero. -/
abbrev StepId : Type :=
  Nat

/-- The number of a step as it is shown, counted from one. -/
def StepId.write (i : StepId) : String :=
  toString (i + 1)

/-- What stops the making of proof steps. -/
inductive Fault where
  /-- A step was to rest on one that does not exist. -/
  | missingStep (id : StepId)
  /-- A step or an argument was asked for that does not exist. -/
  | outOfRange
  /-- Closure came to a goal that is not proven and not of the form of the schema. -/
  | notAnInstance (goal : Term) (schema : Schema)
  | noClosureRule (schema : Schema)
  /-- A closure rule has another number of hypotheses than its schema has open places. -/
  | hypothesisCount (label : String)
  /-- A closure rule led to another formula than the goal. -/
  | goalMissed (label : String)
  /-- No step was left for this conjunct of a pattern. -/
  | tooFewSteps (conjunct : Term)
  | leftoverSteps (pattern : Term) (used given : Nat)
  | notAnImplication (label : String)
  | antecedentMismatch (id : StepId) (label : String)
  /-- The antecedent leaves a variable of the consequent open. -/
  | openVariable (v : Serial) (label : String)
  | notAnEquivalence (formula : Term)
  | differentRelations (first second : Term)
  | brokenChain (first second : Term)
  | differentTypes (left right : Term)
  | noRelation (left : Term)
  deriving DecidableEq

def Fault.message : Fault → String
  | missingStep i => "step " ++ i.write ++ " does not exist"
  | outOfRange => "there is no such step or argument"
  | notAnInstance g s =>
    s!"incorrect call of closure_property: {g} is neither proven nor an instance of {s}"
  | noClosureRule s =>
    s!"incorrect call of closure_property: there is no closure rule for {s}"
  | hypothesisCount l => s!"{l} does not have one hypothesis for each open argument"
  | goalMissed l => s!"{l} did not produce the closure goal"
  | tooFewSteps p => s!"not enough steps for the conjunction pattern {p}"
  | leftoverSteps p used given => s!"conjunction pattern {p} used {used} of {given} steps"
  | notAnImplication l => s!"{l} is not an implication without hypotheses"
  | antecedentMismatch i l => "step " ++ i.write ++ s!" does not match the antecedent of {l}"
  | openVariable v l =>
    "variable x" ++ v.write ++ s!" of the consequent of {l} is not fixed by its antecedent"
  | notAnEquivalence f => s!"{f} is not an equivalence"
  | differentRelations f s => s!"{f} and {s} use different relations"
  | brokenChain f s => s!"{f} and {s} do not chain"
  | differentTypes l r => s!"cannot equate {l} and {r}: different types"
  | noRelation l => s!"there is no equivalence relation for the type of {l}"

end Lemmata
