import Lemmata.Closure.Schema
import Lemmata.Mining.Skip
import Lemmata.Theory.Assertion

/-!
# Closure rules

An assertion is a pure closure rule when its hypotheses state one property of different variables,
and its conclusion states the same property of an application to these variables in the same order,
with constants among them:

    A ∈ ℂ,  B ∈ ℂ  ⊢  A + B ∈ ℂ

It is an implication closure rule when it says the same as one implication from a conjunction:

    ⊢  (A ∈ ℂ ∧ B ∈ ℂ) → A + B ∈ ℂ

Both are recognised in the same way once the conditions are found: the hypotheses of the one, the
conjuncts of the antecedent of the other.
-/

namespace Lemmata

/-- The two forms of a closure rule. -/
inductive ClosureKind where
  /-- One hypothesis for each open argument. -/
  | pure
  /-- One implication from a conjunction. -/
  | implication
  deriving DecidableEq

namespace ClosureKind

def write : ClosureKind → String
  | pure => "pure"
  | implication => "implication"

end ClosureKind

/-- A closure schema and the assertion that states it. -/
structure ClosureRule where
  kind : ClosureKind
  schema : Schema
  assertion : Assertion
  deriving DecidableEq

namespace ClosureRule

/-- The depth of `(A ∈ ℂ ∧ B ∈ ℂ) → A + B ∈ ℂ`, which the conclusion of an implication closure rule
must have. -/
def implicationDepth : Nat :=
  4

/-- Checks that each condition states the property about its own variable. The conditions are
numbered from `i`. -/
def checkConditions (p : Template) (i : Nat) : List Term → List Serial → Except Skip Unit
  | t :: ts, v :: vs =>
    if (p.capture? t).map Term.head = some (.var v) then checkConditions p (i + 1) ts vs
    else .error (.inconsistentHypothesis i)
  | _, _ => .ok ()

/-- Goes through the arguments of an application, numbered from `i`. A variable opens its place and
uses up the condition it belongs to; anything else must be constant. Yields the conditions in the
order of their use, after the ones already used, and the slots. -/
def readArguments (vars : List Serial) :
    (i : Nat) → (used : List Nat) → List Term → Except Skip (List Nat × Slots)
  | _, used, [] => .ok (used, [])
  | i, used, t :: ts =>
    match t.head.varId? with
    | some v =>
      match vars.idxOf? v with
      | some k =>
        if k ∈ used then .error (.unmatchedVariable i)
        else do
          let (used', slots) ← readArguments vars (i + 1) (used ++ [k]) ts
          return (used', none :: slots)
      | none => .error (.unmatchedVariable i)
    | none =>
      if t.isConstant then do
        let (used', slots) ← readArguments vars (i + 1) used ts
        return (used', some t :: slots)
      else .error (.nestedVariable i)

/-- The operator and the slots of the application that a conclusion is about. Every variable must be
used, in order. -/
def readConclusion (p : Template) (vars : List Serial) (conclusion : Term) :
    Except Skip (Symbol × Slots) :=
  match p.capture? conclusion with
  | some (.app (.op f) (t :: ts)) => do
    let (used, slots) ← readArguments vars 0 [] (t :: ts)
    if used.length ≠ vars.length then throw .unusedHypothesis
    if used ≠ List.range vars.length then throw .incorrectOrder
    return (.op f, slots)
  | _ => .error .conclusionMismatch

/-- The schema that is stated by a conclusion under conditions. -/
def readSchema (conditions : List Term) (conclusion : Term) : Except Skip Schema :=
  match conditions, conditions.mapM Term.soleVar? with
  | [], _ => .error .noHypotheses
  | _, none => .error .hypothesisVariables
  | _ :: _, some [] => .error .hypothesisVariables
  | t :: ts, some (v :: vs) =>
    match Template.abstracting? t v with
    | none => .error .noTemplate
    | some p => do
      checkConditions p 1 ts vs
      let (f, slots) ← readConclusion p (v :: vs) conclusion
      return ⟨f, slots, p⟩

/-- Recognises a pure closure rule. -/
def ofPure (a : Assertion) : Except Skip ClosureRule :=
  let h := a.hypotheses.length
  let v := a.mandatoryVars.length
  if h = 0 then .error .noHypotheses
  else if h ≠ v then .error (.hypothesisCount h v)
  else (readSchema a.hypotheses a.conclusion).map fun s => ⟨.pure, s, a⟩

/-- Recognises an implication closure rule, given which symbols are implications and how an
antecedent falls into conjuncts. -/
def ofImplication (isImplication : Symbol → Bool) (conjuncts : Term → List Term) (a : Assertion) :
    Except Skip ClosureRule :=
  if a.hypotheses ≠ [] then .error .hasHypotheses
  else if a.conclusion.depth ≠ implicationDepth then .error (.depth a.conclusion.depth)
  else
    match a.conclusion with
    | .app s [antecedent, consequent] =>
      if isImplication s then
        (readSchema (conjuncts antecedent) consequent).map fun s => ⟨.implication, s, a⟩
      else .error .notImplication
    | _ => .error .notImplication

end ClosureRule

end Lemmata
