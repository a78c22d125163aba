import Lemmata.Json.Reader
import Lemmata.Theory.Basic

/-!
# Theory files

A theory is kept in a file as a JSON record of symbol groups and statements. Reading the file and
building the theory are two steps: the first looks at the shape of the record only, the second
declares the symbols and states the assertions in the order of the file.
-/

namespace Lemmata

/-- Symbols of one type. -/
structure SymbolGroup where
  type : String
  names : List String
  deriving DecidableEq

/-- An assertion as it is written down. -/
structure Statement where
  label : String
  hypotheses : List String := []
  conclusion : String
  deriving DecidableEq

/-- The description of a theory. -/
structure TheoryFile where
  vars : List SymbolGroup := []
  operators : List SymbolGroup := []
  statements : List Statement := []
  deriving DecidableEq

namespace SymbolGroup

def ofJson? (j : Json) : Option SymbolGroup := do
  let [type, names] ← j.fields? ["type", "names"] | none
  return {
    type := ← Json.required Json.text? type
    names := ← Json.required (Json.list? Json.text?) names }

end SymbolGroup

namespace Statement

def ofJson? (j : Json) : Option Statement := do
  let [label, hypotheses, conclusion] ← j.fields? ["label", "hyps", "conclusion"] | none
  return {
    label := ← Json.required Json.text? label
    hypotheses := ← Json.withDefault [] (Json.list? Json.text?) hypotheses
    conclusion := ← Json.required Json.text? conclusion }

end Statement

namespace TheoryFile

/-- The description that a JSON value holds. -/
def ofJson? (j : Json) : Option TheoryFile := do
  let [vars, operators, statements] ← j.fields? ["variables", "syntax", "assertions"] | none
  return {
    vars := ← Json.withDefault [] (Json.list? SymbolGroup.ofJson?) vars
    operators := ← Json.withDefault [] (Json.list? SymbolGroup.ofJson?) operators
    statements := ← Json.withDefault [] (Json.list? Statement.ofJson?) statements }

/-- Reads the text of a theory file. -/
def read? (text : String) : Option TheoryFile :=
  (Json.read? text).bind ofJson?

end TheoryFile

namespace Theory

/-- Declares groups of symbols of one sort. -/
def declareGroups (role : Role) : List SymbolGroup → Building Unit
  | [] => pure ()
  | g :: gs => do
    declareSymbols role g.names g.type
    declareGroups role gs

/-- States assertions one after the other. -/
def stateAll : List Statement → Building Unit
  | [] => pure ()
  | s :: ss => do
    let _ ← state s.label s.hypotheses s.conclusion
    stateAll ss

/-- Builds what a file describes: variables, then operators, then assertions. -/
def build (file : TheoryFile) : Building Unit := do
  declareGroups .var file.vars
  declareGroups .op file.operators
  stateAll file.statements

/-- The theory that a file describes. -/
def ofFile (file : TheoryFile) : Except TheoryError Theory :=
  match build file {} with
  | (.ok (), T) => .ok T
  | (.error e, _) => .error e

end Theory

/-- Why a theory cannot be loaded. -/
inductive LoadError where
  /-- The file cannot be opened, for this reason. -/
  | unavailable (reason : String)
  /-- The file does not hold a description of a theory. -/
  | malformed
  | refused (cause : TheoryError)

namespace LoadError

/-- How the message for a malformed file begins. -/
def malformedHeading : String :=
  "invalid database file: "

def message : LoadError → String
  | unavailable reason => reason
  | malformed => malformedHeading ++ "not the description of a database in JSON"
  | refused e => e.message

end LoadError

namespace Theory

/-- The theory in a file with this text. -/
def ofText (text : String) : Except LoadError Theory :=
  match TheoryFile.read? text with
  | none => .error .malformed
  | some file => (ofFile file).mapError .refused

/-- The theory in a file, given its text or the reason why it cannot be opened. -/
def load : Except String String → Except LoadError Theory
  | .error reason => .error (.unavailable reason)
  | .ok text => ofText text

end Theory

end Lemmata
