import Lemmata.Equivalence.Catalog
import Lemmata.Worksheet.Basic

/-!
# Proving with equivalences

From a step `a = b` the step `b = a`, and from steps `a = b` and `b = c` the step `a = c`.
-/

namespace Lemmata.EquivalenceCatalog

/-- The formula `left = right`, with the relation for the type of the two. -/
def equate (c : EquivalenceCatalog) (sig : Signature) (left right : Term) : Except Fault Term :=
  if sig.termType? left ≠ sig.termType? right then .error (.differentTypes left right)
  else
    match (sig.termType? left).bind c.relationFor? with
    | none => .error (.noRelation left)
    | some s => .ok (.binary s left right)

/-- From a step `a = b` the step `b = a`. -/
def reverse (c : EquivalenceCatalog) (source : StepId) : Derivation StepId := do
  let f ← Worksheet.formula source
  match c.commutativity? f.head with
  | none => throw (.notAnEquivalence f)
  | some comm => do
    let b ← f.argument 1
    let a ← f.argument 0
    Worksheet.derive (.binary f.head b a) [source] comm

/-- From steps `a = b` and `b = c` the step `a = c`. -/
def join (c : EquivalenceCatalog) (first second : StepId) : Derivation StepId := do
  let f ← Worksheet.formula first
  let g ← Worksheet.formula second
  if g.head ≠ f.head then throw (.differentRelations f g)
  let b ← f.argument 1
  let b' ← g.argument 0
  if b ≠ b' then throw (.brokenChain f g)
  match c.transitivity? f.head with
  | none => throw (.notAnEquivalence f)
  | some transitivity => do
    let a ← f.argument 0
    let d ← g.argument 1
    Worksheet.derive (.binary f.head a d) [first, second] transitivity

/-- Appends a link to a chain. A chain without links yet becomes the link, whatever that is. -/
def chain (c : EquivalenceCatalog) : Option StepId → StepId → Derivation StepId
  | none, second => pure second
  | some first, second => c.join first second

end Lemmata.EquivalenceCatalog
