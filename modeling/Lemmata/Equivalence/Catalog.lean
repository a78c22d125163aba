import Lemmata.Catalogs.Selection
import Lemmata.Equivalence.Rule
import Lemmata.Term.Order
import Lemmata.Theory.Basic

/-!
# The equivalence catalog

The relations of a theory that have both lemmas of an equivalence, in the order of the first lemmas
that turn them around. A type belongs to the first relation between terms of this type.
-/

namespace Lemmata

/-- The lemmas of an equivalence. -/
structure EquivalenceLemmas where
  commutativity : Assertion
  transitivity : Assertion

/-- The equivalences of a theory. -/
structure EquivalenceCatalog where
  relations : Registry Symbol EquivalenceLemmas := .empty
  /-- The relation for terms of a type. -/
  byType : Registry TypeId Symbol := .empty

namespace EquivalenceCatalog

/-- The type of the terms that a relation is between, read off the conclusion of its commutativity. -/
def operandType? (sig : Signature) (e : EquivalenceLemmas) : Option TypeId :=
  e.commutativity.conclusion.args.head?.bind sig.termType?

/-- The equivalences among assertions: operators with both lemmas, of which the first count. -/
def relationsOf (as : List Assertion) : Registry Symbol EquivalenceLemmas :=
  let lemmas (rule : Assertion → Except Skip Symbol) : Registry Symbol Assertion :=
    .ofList (as.filterMap fun a => (rule a).toOption.map fun s => (s, a))
  let transitive := lemmas Assertion.chains
  .ofList ((lemmas Assertion.commutes).toList.filterMap fun (s, a) =>
    (transitive.get? s).map fun b => (s, ⟨a, b⟩))

/-- The equivalence catalog of a theory. -/
def ofTheory (T : Theory) (selection : Selection) : EquivalenceCatalog :=
  if selection.equivalence then
    let relations := relationsOf T.assertions.values
    ⟨relations, .ofList (relations.toList.filterMap fun (s, e) =>
      (operandType? T.signature e).map fun t => (t, s))⟩
  else {}

def isEquivalence (c : EquivalenceCatalog) (s : Symbol) : Bool :=
  c.relations.contains s

def commutativity? (c : EquivalenceCatalog) (s : Symbol) : Option Assertion :=
  (c.relations.get? s).map (·.commutativity)

def transitivity? (c : EquivalenceCatalog) (s : Symbol) : Option Assertion :=
  (c.relations.get? s).map (·.transitivity)

/-- The relation for terms of a type. -/
def relationFor? (c : EquivalenceCatalog) (t : TypeId) : Option Symbol :=
  c.byType.get? t

end EquivalenceCatalog

end Lemmata
