import Lemmata.Json.Reader

/-!
# Selections

Which catalogs are to be made from a theory. A catalog that is not selected stays empty.
-/

namespace Lemmata

/-- Which catalogs are made. -/
structure Selection where
  /-- Closure rules with one hypothesis for each argument. -/
  pureClosure : Bool := true
  /-- Closure rules that are single implications. -/
  implicationClosure : Bool := true
  equivalence : Bool := true
  deriving DecidableEq

namespace Selection

/-- The selection that a JSON value holds; what it leaves out is selected. -/
def ofJson? (j : Json) : Option Selection := do
  let [pureClosure, implicationClosure, equivalence] ←
    j.fields? ["closure", "impl_closure", "equivalence"] | none
  return {
    pureClosure := ← Json.withDefault true Json.bool? pureClosure
    implicationClosure := ← Json.withDefault true Json.bool? implicationClosure
    equivalence := ← Json.withDefault true Json.bool? equivalence }

/-- Reads the text of a selection. -/
def read? (text : String) : Option Selection :=
  (Json.read? text).bind ofJson?

/-- Why a selection cannot be loaded. -/
inductive LoadError where
  | unavailable (reason : String)
  | malformed

def LoadError.message : LoadError → String
  | unavailable reason => reason
  | malformed => "not a selection of catalogs in JSON"

/-- The selection in a file, given its text or the reason why it cannot be opened. -/
def load : Except String String → Except LoadError Selection
  | .error reason => .error (.unavailable reason)
  | .ok text =>
    match read? text with
    | some s => .ok s
    | none => .error .malformed

end Selection

end Lemmata
