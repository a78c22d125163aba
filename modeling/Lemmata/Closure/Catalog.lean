import Lemmata.Catalogs.Selection
import Lemmata.Closure.Rule
import Lemmata.Connective.Conjunction
import Lemmata.Connective.Detachment

/-!
# The closure catalog

Closure rules are filed under their schemas, the two kinds apart. The first assertion that states a
rule keeps it, and a later one is a duplicate.
-/

namespace Lemmata

/-- The closure rules of a theory, with the connectives that implication rules are stated in. -/
structure ClosureCatalog where
  detachments : Detachments
  conjunctions : Conjunctions
  pureRules : Registry Schema Assertion := .empty
  implicationRules : Registry Schema Assertion := .empty

namespace ClosureCatalog

/-- The rules of a kind. -/
def rulesOf (c : ClosureCatalog) : ClosureKind → Registry Schema Assertion
  | .pure => c.pureRules
  | .implication => c.implicationRules

/-- The assertion that states a schema in one of the two forms. -/
def assertion? (c : ClosureCatalog) (kind : ClosureKind) (s : Schema) : Option Assertion :=
  (c.rulesOf kind).get? s

/-- Whether some assertion states the schema. -/
def states (c : ClosureCatalog) (s : Schema) : Bool :=
  c.pureRules.contains s || c.implicationRules.contains s

/-- The number of rules. -/
def size (c : ClosureCatalog) : Nat :=
  c.pureRules.size + c.implicationRules.size

/-! ## Registration -/

/-- Files a rule. -/
def file (c : ClosureCatalog) (r : ClosureRule) : ClosureCatalog :=
  match r.kind with
  | .pure => { c with pureRules := c.pureRules.push r.schema r.assertion }
  | .implication => { c with implicationRules := c.implicationRules.push r.schema r.assertion }

/-- Files what was recognised, unless its schema is taken. -/
def register (c : ClosureCatalog) :
    Except Skip ClosureRule → Except Skip ClosureRule × ClosureCatalog
  | .error e => (.error e, c)
  | .ok r =>
    if (c.rulesOf r.kind).contains r.schema then (.error .duplicate, c) else (.ok r, c.file r)

/-- Recognises an assertion as a rule of a kind. -/
def recognise (c : ClosureCatalog) : ClosureKind → Assertion → Except Skip ClosureRule
  | .pure, a => ClosureRule.ofPure a
  | .implication, a =>
    ClosureRule.ofImplication c.detachments.isImplication c.conjunctions.conjuncts a

/-- Files an assertion if it is a new rule of a kind. -/
def add (c : ClosureCatalog) (kind : ClosureKind) (a : Assertion) :
    Except Skip ClosureRule × ClosureCatalog :=
  c.register (c.recognise kind a)

/-- Files those of the assertions that are new rules of a kind. -/
def addAll (c : ClosureCatalog) (kind : ClosureKind) (as : List Assertion) : ClosureCatalog :=
  as.foldl (fun c a => (c.add kind a).2) c

/-- The closure catalog of a theory: all pure rules, then all implication rules. -/
def ofTheory (T : Theory) (selection : Selection) (detachments : Detachments)
    (conjunctions : Conjunctions) : ClosureCatalog :=
  let c : ClosureCatalog := { detachments, conjunctions }
  let c := if selection.pureClosure then c.addAll .pure T.assertions.values else c
  if selection.implicationClosure then c.addAll .implication T.assertions.values else c

/-! ## Search and listing -/

/-- The schemas about applications of a symbol, in order of registration. -/
def schemasFor (c : ClosureCatalog) (kind : ClosureKind) (f : Symbol) : List Schema :=
  (c.rulesOf kind).keys.filter fun s => s.symbol = f

/-- A schema with this template that the term fits. Pure rules come first, and of one kind the
earlier one. -/
def generalize (c : ClosureCatalog) (t : Term) (p : Template) : Option Schema :=
  (c.schemasFor .pure t.head ++ c.schemasFor .implication t.head).find? fun s =>
    s.template = p && s.slots.fits t.args

/-- Every rule: the pure ones and then the others, each in the order of their schemas. -/
def rules (c : ClosureCatalog) : List ClosureRule :=
  c.pureRules.sorted.map (fun (s, a) => ⟨.pure, s, a⟩)
    ++ c.implicationRules.sorted.map (fun (s, a) => ⟨.implication, s, a⟩)

end ClosureCatalog

end Lemmata
