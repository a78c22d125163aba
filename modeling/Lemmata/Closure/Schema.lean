import Lemmata.Spelling.Numbered
import Lemmata.Term.Template

/-!
# Closure schemas

A closure schema says which terms have a property as soon as their arguments have it: applications
of one symbol, with fixed terms at some argument places and any terms at the others. For example,
`sin` being closed on the complex numbers is the schema of the application symbol with the fixed
term `sin` at its first place, an open second place, and the template `_ ∈ ℂ`.
-/

namespace Lemmata

/-- What is asked of each argument: a fixed term, or nothing where the place is open. -/
abbrev Slots : Type :=
  List (Option Term)

namespace Slots

/-- Places that are all open. -/
def allOpen (arity : Nat) : Slots :=
  List.replicate arity none

/-- The open places, in increasing order. -/
def openPlaces (slots : Slots) : List Nat :=
  (List.range slots.length).filter fun i => slots[i]? = some none

/-- Whether the arguments are as many as the places and agree with the fixed terms. -/
def fits : Slots → List Term → Bool
  | [], [] => true
  | none :: slots, _ :: ts => fits slots ts
  | some c :: slots, t :: ts => c = t && fits slots ts
  | _, _ => false

/-- The numbered spelling, with a star for an open place. -/
def write (slots : Slots) : String :=
  "[" ++ ", ".intercalate (slots.map fun s => (s.map Term.write).getD "*") ++ "]"

end Slots

/-- Applications of a symbol with some arguments fixed, and the property they have. -/
structure Schema where
  symbol : Symbol
  slots : Slots
  template : Template
  deriving DecidableEq

namespace Schema

/-- Whether the term is an application as the schema describes it. -/
def fits (s : Schema) (t : Term) : Bool :=
  t.head = s.symbol && s.slots.fits t.args

/-- The argument places that closure descends into. -/
def openPlaces (s : Schema) : List Nat :=
  s.slots.openPlaces

/-- What the schema claims of a term. -/
def goal (s : Schema) (t : Term) : Term :=
  s.template.fill t

/-- The numbered spelling of a schema. -/
def write (s : Schema) : String :=
  s.symbol.write ++ " " ++ s.slots.write ++ " " ++ s.template.body.write

instance : ToString Schema :=
  ⟨write⟩

/-- Schemas are ordered by symbol, then slots with open ones first, then template. -/
def order (s t : Schema) : Ordering :=
  (compare s.symbol t.symbol).then
    ((compare s.slots t.slots).then (compare s.template t.template))

instance : Ord Schema :=
  ⟨order⟩

/-- The schemas in increasing order. -/
def sort (ss : List Schema) : List Schema :=
  ss.mergeSort fun s t => (compare s t).isLE

end Schema

end Lemmata
