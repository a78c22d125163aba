import Lemmata.Closure.Catalog

/-!
# Proving closure

A term has the property of a schema when a step says so, or when it fits the schema, a rule states
the schema, and its arguments at the open places have the property. `canProve` asks whether a term
has the property in this sense, and `prove` makes the steps. Steps are made from the inside out and
from left to right, and each goal is looked for on the worksheet before anything is made for it.
-/

namespace Lemmata.ClosureCatalog

mutual

/-- Whether `prove` makes a step for the term. -/
def canProve (c : ClosureCatalog) (w : Worksheet) (s : Schema) : Term → Bool
  | .app h as =>
    (w.find? (s.goal (.app h as))).isSome
      || (s.fits (.app h as) && c.states s && c.canProveOpen w s s.slots as)

/-- Whether `prove` makes steps for the arguments at the open places. -/
def canProveOpen (c : ClosureCatalog) (w : Worksheet) (s : Schema) : Slots → List Term → Bool
  | none :: slots, t :: ts => c.canProve w s t && c.canProveOpen w s slots ts
  | some _ :: slots, _ :: ts => c.canProveOpen w s slots ts
  | _, _ => true

end

/-- The step for a goal whose open arguments are proved by the given steps: by the pure rule of the
schema, or else by its implication rule from the conjunction of the steps. -/
def conclude (c : ClosureCatalog) (s : Schema) (goal : Term) (steps : List StepId) :
    Derivation StepId :=
  match c.assertion? .pure s with
  | some a =>
    if steps.length = a.hypotheses.length then Worksheet.derive goal steps a
    else throw (.hypothesisCount a.label)
  | none =>
    match c.assertion? .implication s with
    | none => throw (.noClosureRule s)
    | some a => do
      let antecedent ← a.conclusion.argument 0
      let i ← c.conjunctions.concatenate steps antecedent
      let consequent ← a.conclusion.argument 1
      let j ← c.detachments.detach i consequent a
      let f ← Worksheet.formula j
      if f = goal then pure j else throw (.goalMissed a.label)

mutual

/-- The step that says that the term has the property of the schema. -/
def prove (c : ClosureCatalog) (s : Schema) : Term → Derivation StepId
  | .app h as => do
    let w ← get
    match w.find? (s.goal (.app h as)) with
    | some i => pure i
    | none =>
      if s.fits (.app h as) then do
        let steps ← c.proveOpen s s.slots as
        c.conclude s (s.goal (.app h as)) steps
      else throw (.notAnInstance (s.goal (.app h as)) s)

/-- The steps for the arguments at the open places, from left to right. -/
def proveOpen (c : ClosureCatalog) (s : Schema) : Slots → List Term → Derivation (List StepId)
  | none :: slots, t :: ts => do
    let i ← c.prove s t
    let rest ← c.proveOpen s slots ts
    pure (i :: rest)
  | some _ :: slots, _ :: ts => c.proveOpen s slots ts
  | _, _ => pure []

end

end Lemmata.ClosureCatalog
