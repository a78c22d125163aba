import Lemmata.Theory.Assertion
import Lemmata.Theory.Signature

/-!
# Theories

A theory is a signature with labelled assertions over it. It is built by declaring types and
symbols and by stating assertions in the named spelling. A statement is refused as a whole; of a
list of declarations those before a refused one stay.
-/

namespace Lemmata

/-- Why a theory refuses a declaration or a statement. -/
inductive TheoryError where
  | declaration (cause : DeclError)
  | unreadable (text : String) (cause : Spelling.ReadError)
  /-- The hole belongs in templates, not in statements. -/
  | holeIn (text : String)
  | duplicateLabel (label : String)
  deriving DecidableEq

def TheoryError.message : TheoryError → String
  | declaration e => e.message
  | unreadable text e => s!"in '{text}': " ++ e.message text
  | holeIn text => s!"'{text}' contains a hole, which is only allowed in templates"
  | duplicateLabel l => s!"assertion '{l}' is already declared"

/-- A signature, and assertions filed under their labels. -/
structure Theory where
  signature : Signature := {}
  assertions : Registry String Assertion := .empty

namespace Theory

/-- The assertion with this label. -/
def assertion? (T : Theory) (label : String) : Option Assertion :=
  T.assertions.get? label

/-- Reads a formula: a term in the named spelling without a hole. -/
def read (T : Theory) (text : String) : Except TheoryError Term :=
  match T.signature.read text with
  | .error e => .error (.unreadable text e)
  | .ok t => if t.holeCount = 0 then .ok t else .error (.holeIn text)

/-- A sequence of declarations and statements, of which the first refused one ends the sequence. -/
abbrev Building (α : Type) : Type :=
  ExceptT TheoryError (StateM Theory) α

/-- Declarations, made in the signature of the theory. -/
def declaring {α : Type} (act : Signature.Declaring α) : Building α := fun
  | ⟨sig, as⟩ =>
    match act sig with
    | (r, sig') => (r.mapError .declaration, ⟨sig', as⟩)

/-- The type with this name, declared now if it is new. -/
def declareType (name : String) : Building TypeId :=
  declaring (Signature.declareType name)

/-- Declares symbols of one sort and one type, and before them the type if it is new. -/
def declareSymbols (role : Role) (names : List String) (type : String) : Building Unit :=
  declaring do
    let t ← Signature.declareType type
    Signature.declareAll role t names

/-- Reads an assertion: its label has to be new, then the hypotheses are read in order and the
conclusion last. -/
def readAssertion (T : Theory) (label : String) (hypotheses : List String) (conclusion : String) :
    Except TheoryError Assertion :=
  if T.assertions.contains label then .error (.duplicateLabel label)
  else do
    let hs ← hypotheses.mapM T.read
    let c ← T.read conclusion
    return ⟨label, hs, c⟩

/-- States an assertion. -/
def state (label : String) (hypotheses : List String) (conclusion : String) :
    Building Assertion := fun T =>
  match T.readAssertion label hypotheses conclusion with
  | .error e => (.error e, T)
  | .ok a => (.ok a, { T with assertions := T.assertions.push label a })

end Theory

end Lemmata
