import Lemmata.Registry
import Lemmata.Theory.Assertion
import Lemmata.Worksheet.Fault

/-!
# Worksheets

A worksheet holds the steps of a proof in the making. There is at most one step for a formula: to
prove a formula again yields the step that is there. Steps are only ever added, and a step rests on
steps that were there before it.
-/

namespace Lemmata

/-- Why a step holds. -/
inductive Justification where
  /-- It is a hypothesis of the proof. -/
  | hypothesis
  /-- It applies an assertion to earlier steps, one for each hypothesis of the assertion. -/
  | assertion (a : Assertion) (premises : List StepId)
  deriving DecidableEq

/-- The steps that a step rests on. -/
def Justification.premises : Justification → List StepId
  | hypothesis => []
  | assertion _ ps => ps

/-- The label of the assertion that a step applies. -/
def Justification.label? : Justification → Option String
  | hypothesis => none
  | assertion a _ => some a.label

/-- The steps of a proof in the making, filed under their formulas. -/
structure Worksheet where
  steps : Registry Term Justification := .empty

/-- The making of proof steps: it adds to a worksheet, and may stop at a fault. What it added before
stays. -/
abbrev Derivation (α : Type) : Type :=
  ExceptT Fault (StateM Worksheet) α

namespace Worksheet

/-- The number of steps. -/
def size (w : Worksheet) : Nat :=
  w.steps.size

/-- The step that proves exactly this formula. -/
def find? (w : Worksheet) (f : Term) : Option StepId :=
  w.steps.find? f

/-- The formula of a step and its justification. -/
def step? (w : Worksheet) (i : StepId) : Option (Term × Justification) :=
  w.steps.at? i

/-- The formula of a step. -/
def formula? (w : Worksheet) (i : StepId) : Option Term :=
  (w.step? i).map (·.1)

/-- The step for the formula: the one that is there, or a new one. -/
def enter (f : Term) (j : Justification) (w : Worksheet) : StepId × Worksheet :=
  match w.find? f with
  | some i => (i, w)
  | none =>
    let i := w.size
    (i, ⟨w.steps.push f j⟩)

/-- The step for a hypothesis of the proof. -/
def suppose (f : Term) : Derivation StepId := fun w =>
  match w.enter f .hypothesis with
  | (i, w') => (.ok i, w')

/-- The step for a formula that follows from the premises by the assertion. The premises have to be
on the worksheet, even if the formula is there already. -/
def derive (f : Term) (premises : List StepId) (a : Assertion) : Derivation StepId := fun w =>
  match premises.find? fun i => w.size ≤ i with
  | some i => (.error (.missingStep i), w)
  | none =>
    match w.enter f (.assertion a premises) with
    | (i, w') => (.ok i, w')

/-- The formula of a step that has to exist. -/
def formula (i : StepId) : Derivation Term := fun w =>
  match w.formula? i with
  | some f => (.ok f, w)
  | none => (.error .outOfRange, w)

end Worksheet

/-- An argument that has to exist. -/
def Term.argument (t : Term) (i : Nat) : Except Fault Term :=
  match t.args[i]? with
  | some u => .ok u
  | none => .error .outOfRange

end Lemmata
