import Lemmata.Theory.Basic
import Lemmata.Worksheet.Basic

/-!
# Conjunction

An operator is a conjunction when the theory can introduce it, from all its operands, and eliminate
it, to each of them. A term falls into conjuncts by taking all its conjunctions apart, and steps for
the conjuncts can be joined again in the pattern of the term.

Only an application to as many operands as the introduction has counts as a conjunction. Which
elimination goes with a place is decided by the operator and the place alone.
-/

namespace Lemmata

/-- The variables, if the terms are different bare variables. -/
def Term.differentVars? (ts : List Term) : Option (List Serial) := do
  let vs ← ts.mapM Term.bareVar?
  if vs.Nodup then some vs else none

namespace Assertion

/-- The operator, if the assertion introduces it: from two or more different variables follows the
operator applied to them in this order. -/
def introduces? (a : Assertion) : Option Symbol :=
  match a.conclusion with
  | .app (.op f) args => do
    let vs ← Term.differentVars? a.hypotheses
    let ws ← Term.differentVars? args
    if 2 ≤ vs.length ∧ ws = vs then some (.op f) else none
  | _ => none

/-- The operator and the place, if the assertion eliminates the operator to the operand there: from
the operator applied to two or more different variables follows one of them. -/
def eliminates? (a : Assertion) : Option (Symbol × Nat) :=
  match a.hypotheses with
  | [.app (.op f) args] => do
    let vs ← Term.differentVars? args
    let v ← a.conclusion.bareVar?
    let i ← vs.idxOf? v
    if 2 ≤ vs.length then some (.op f, i) else none
  | _ => none

end Assertion

/-- The rules of a conjunction. -/
structure Conjunction where
  introduction : Assertion
  /-- An elimination for each place. -/
  eliminations : List Assertion

/-- The number of operands that a conjunction joins. -/
def Conjunction.arity (c : Conjunction) : Nat :=
  c.introduction.hypotheses.length

/-- The conjunctions of a theory. -/
structure Conjunctions where
  operators : Registry Symbol Conjunction := .empty

namespace Conjunctions

/-- The conjunctions of a theory: every operator with an introduction, of which the first counts,
and with an elimination for each of its places, of which again the first counts. -/
def ofTheory (T : Theory) : Conjunctions :=
  let introductions : Registry Symbol Assertion :=
    .ofList (T.assertions.values.filterMap fun a => a.introduces?.map fun s => (s, a))
  let eliminations := T.assertions.values.filterMap fun a => a.eliminates?.map fun e => (e, a)
  ⟨.ofList (introductions.toList.filterMap fun (s, a) =>
    ((List.range a.hypotheses.length).mapM fun i => eliminations.lookup (s, i)).map
      fun es => (s, ⟨a, es⟩))⟩

def isConjunction (c : Conjunctions) (s : Symbol) : Bool :=
  c.operators.contains s

/-- The conjunction at the root of a term, if it has as many operands as it joins. -/
def rootOf? (c : Conjunctions) (t : Term) : Option Conjunction :=
  (c.operators.get? t.head).filter fun k => k.arity = t.arity

mutual

/-- The conjuncts of a term from left to right. A term that is no conjunction is its own only
conjunct. -/
def conjuncts (c : Conjunctions) : Term → List Term
  | .app h as => if (c.rootOf? (.app h as)).isSome then c.conjunctsList as else [.app h as]

def conjunctsList (c : Conjunctions) : List Term → List Term
  | [] => []
  | t :: ts => c.conjuncts t ++ c.conjunctsList ts

end

mutual

/-- Joins the first of the steps in the pattern of a term, one for each conjunct, and yields the step
for the whole and the steps that are left. -/
def join (c : Conjunctions) : Term → List StepId → Derivation (StepId × List StepId)
  | .app h as, steps =>
    match c.rootOf? (.app h as) with
    | none =>
      match steps with
      | i :: rest => pure (i, rest)
      | [] => throw (.tooFewSteps (.app h as))
    | some k => do
      let (operands, rest) ← c.joinList as steps
      let i ← Worksheet.derive (.app h (operands.map (·.2))) (operands.map (·.1)) k.introduction
      pure (i, rest)

/-- Joins steps in the patterns of several terms, and yields the resulting steps with their formulas
and the steps that are left. -/
def joinList (c : Conjunctions) :
    List Term → List StepId → Derivation (List (StepId × Term) × List StepId)
  | [], steps => pure ([], steps)
  | t :: ts, steps => do
    let (i, rest) ← c.join t steps
    let f ← Worksheet.formula i
    let (operands, rest') ← c.joinList ts rest
    pure ((i, f) :: operands, rest')

end

/-- Joins steps in the pattern of a term, which must have as many conjuncts as there are steps. -/
def concatenate (c : Conjunctions) (steps : List StepId) (pattern : Term) : Derivation StepId := do
  let (i, rest) ← c.join pattern steps
  if rest.isEmpty then pure i
  else throw (.leftoverSteps pattern (steps.length - rest.length) steps.length)

end Conjunctions

end Lemmata
