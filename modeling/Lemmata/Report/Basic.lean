import Lemmata.Catalogs.Basic
import Lemmata.Json.Layout

/-!
# Reports

A report lists the closure rules and the equivalences of a theory with their names, as lines of
text or as JSON. It cannot be made when a rule mentions a symbol or a type without a name, which no
theory built from a file has.
-/

namespace Lemmata

/-- A closure rule in a report. -/
structure ClosureEntry where
  kind : String
  assertion : String
  symbol : String
  /-- The fixed arguments, with none at an open place. -/
  arguments : List (Option String)
  template : String
  deriving DecidableEq

/-- An equivalence in a report. -/
structure RelationEntry where
  relation : String
  typeName : Option String
  commutative : Option String
  transitive : Option String
  deriving DecidableEq

/-- The closure rules and the equivalences of a theory. -/
structure Report where
  closure : List ClosureEntry := []
  equivalence : List RelationEntry := []
  deriving DecidableEq

namespace Report

/-- The two parts of a report. -/
inductive Part where
  | closure
  | equivalence
  deriving DecidableEq

/-- A slot with its term written out. -/
def writeSlot? (sig : Signature) : Option Term → Option (Option String)
  | none => some none
  | some t => (sig.write? t).map some

/-- The entry for a closure rule. -/
def ofRule? (sig : Signature) (r : ClosureRule) : Option ClosureEntry := do
  let symbol ← sig.name? r.schema.symbol
  let arguments ← r.schema.slots.mapM (writeSlot? sig)
  let template ← sig.write? r.schema.template.body
  return ⟨r.kind.write, r.assertion.label, symbol, arguments, template⟩

/-- The name of the type of the terms that an equivalence is between, if they have a type. -/
def operandTypeName? (sig : Signature) (e : EquivalenceLemmas) : Option (Option String) := do
  let left ← e.commutativity.conclusion.args[0]?
  match sig.termType? left with
  | none => return none
  | some t => return some (← sig.typeName? t)

/-- The entry for an equivalence. -/
def ofLemmas? (sig : Signature) (s : Symbol) (e : EquivalenceLemmas) :
    Option RelationEntry := do
  let relation ← sig.name? s
  let typeName ← operandTypeName? sig e
  return ⟨relation, typeName, some e.commutativity.label, some e.transitivity.label⟩

/-- The report on a theory, or one part of it. -/
def ofCatalogs? (sig : Signature) (c : Catalogs) (part : Option Part) : Option Report := do
  let closure ←
    if part = some .equivalence then some []
    else c.closure.rules.mapM (ofRule? sig)
  let equivalence ←
    if part = some .closure then some []
    else c.equivalence.relations.toList.mapM fun (s, e) => ofLemmas? sig s e
  return ⟨closure, equivalence⟩

/-! ## Text -/

def closureLine (e : ClosureEntry) : String :=
  e.kind ++ " " ++ e.assertion ++ ": " ++ e.symbol
    ++ "(" ++ ", ".intercalate (e.arguments.map (·.getD "*")) ++ ") " ++ e.template

def relationLine (e : RelationEntry) : String :=
  "equivalence " ++ e.relation ++ " on " ++ e.typeName.getD "?" ++ ": "
    ++ e.commutative.getD "?" ++ ", " ++ e.transitive.getD "?"

/-- The report as text, one line for an entry. -/
def text (r : Report) : String :=
  String.join ((r.closure.map closureLine ++ r.equivalence.map relationLine).map (· ++ "\n"))

/-! ## JSON -/

def closureLayout (e : ClosureEntry) : Json.Layout :=
  .object [
    ("kind", .string e.kind),
    ("assertion", .string e.assertion),
    ("symbol", .string e.symbol),
    ("arguments", .array (e.arguments.map .optional)),
    ("template", .string e.template)]

def relationLayout (e : RelationEntry) : Json.Layout :=
  .object [
    ("relation", .string e.relation),
    ("type_name", .optional e.typeName),
    ("commutative", .optional e.commutative),
    ("transitive", .optional e.transitive)]

/-- The report as JSON, with a line break at its end. -/
def json (r : Report) : String :=
  let layout : Json.Layout := .object [
    ("closure", .array (r.closure.map closureLayout)),
    ("equivalence", .array (r.equivalence.map relationLayout))]
  layout.text ++ "\n"

end Report

end Lemmata
