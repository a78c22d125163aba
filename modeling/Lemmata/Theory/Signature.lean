import Lemmata.Registry
import Lemmata.Spelling.Numbered

/-!
# Signatures

A signature gives names to variables, operators and types, and a type to every variable and
operator. Variables and operators share one name space, so that a name in a written term means one
symbol; each of the three sorts is numbered on its own, in order of declaration.

A declaration either adds one entry or is refused, and a refused one changes nothing.
-/

namespace Lemmata

/-- A syntactic category of terms, like that of formulas or that of classes. -/
structure TypeId where
  serial : Serial
  deriving DecidableEq

namespace TypeId

/-- The numbered spelling of a type. -/
def write (t : TypeId) : String :=
  "t" ++ t.serial.write

instance : Ord TypeId :=
  ⟨fun s t => compare s.serial t.serial⟩

end TypeId

/-- Why a declaration is refused. -/
inductive DeclError where
  /-- All numbers for types are taken. -/
  | tooManyTypes (name : String)
  /-- All numbers for symbols of this sort are taken. -/
  | tooManySymbols (name : String)
  /-- The name could not be read back, or means the hole. -/
  | unusable (name : String)
  /-- The name means another symbol. -/
  | taken (name : String)
  deriving DecidableEq

def DeclError.message : DeclError → String
  | tooManyTypes n => s!"too many type codes to declare '{n}'"
  | tooManySymbols n => s!"too many symbols to declare '{n}'"
  | unusable n => s!"'{n}' cannot be used as a symbol name"
  | taken n => s!"symbol '{n}' is already declared"

/-- The two sorts of symbols that are declared. -/
inductive Role where
  | var
  | op
  deriving DecidableEq

/-- The symbol of this sort with this number. -/
def Role.symbol : Role → Serial → Symbol
  | var => .var
  | op => .op

/-- The declared names, each sort in order of declaration. -/
structure Signature where
  types : Registry String Unit := .empty
  /-- Variables and their types. -/
  vars : Registry String TypeId := .empty
  /-- Operators and the types of the terms they make. -/
  operators : Registry String TypeId := .empty

namespace Signature

/-- The name that means the hole in every signature. -/
def holeName : String :=
  "_"

/-- Whether a name can be declared: it is one token of a written term, and not the hole's. -/
def usable (name : String) : Bool :=
  name ≠ holeName && name ≠ "" && name.toList.all Spelling.isNameChar

/-! ## Lookup -/

/-- The type with this name. -/
def typeNamed? (sig : Signature) (name : String) : Option TypeId :=
  ((sig.types.find? name).bind Serial.ofNat?).map TypeId.mk

/-- The name of a type. -/
def typeName? (sig : Signature) (t : TypeId) : Option String :=
  (sig.types.at? t.serial.val).map (·.1)

/-- The declared symbols of a sort. -/
def table (sig : Signature) : Role → Registry String TypeId
  | .var => sig.vars
  | .op => sig.operators

/-- The symbol of this sort with this name. -/
def findIn? (sig : Signature) (role : Role) (name : String) : Option Symbol :=
  (((sig.table role).find? name).bind Serial.ofNat?).map role.symbol

/-- The symbol with this name. -/
def symbolNamed? (sig : Signature) (name : String) : Option Symbol :=
  if name = holeName then some .hole
  else (sig.findIn? .var name).or (sig.findIn? .op name)

/-- Name and type of a declared variable or operator. -/
def declared? (sig : Signature) : Symbol → Option (String × TypeId)
  | .var i => sig.vars.at? i.val
  | .op i => sig.operators.at? i.val
  | .hole => none

/-- The name of a symbol; the hole always has one. -/
def name? (sig : Signature) : Symbol → Option String
  | .hole => some holeName
  | s => (sig.declared? s).map (·.1)

/-- The type of a symbol; the hole has none. -/
def typeOf? (sig : Signature) (s : Symbol) : Option TypeId :=
  (sig.declared? s).map (·.2)

/-- The type of a term is that of its root. -/
def termType? (sig : Signature) (t : Term) : Option TypeId :=
  sig.typeOf? t.head

/-! ## The named spelling -/

/-- Reads a term in which the declared names stand for their symbols. -/
def read (sig : Signature) (text : String) : Except Spelling.ReadError Term :=
  Spelling.read sig.symbolNamed? text

/-- Whether every symbol of the term has a name. -/
def covers (sig : Signature) (t : Term) : Bool :=
  t.symbols.all fun s => (sig.name? s).isSome

/-- Writes a term with the declared names, if all its symbols have one. -/
def write? (sig : Signature) (t : Term) : Option String :=
  if sig.covers t then some (Spelling.write (fun s => (sig.name? s).getD "") t) else none

/-! ## Declaration -/

/-- A sequence of declarations, of which the first refused one ends the sequence. What was declared
before stays declared. -/
abbrev Declaring (α : Type) : Type :=
  ExceptT DeclError (StateM Signature) α

/-- The type with this name, declared now if it is new. -/
def declareType (name : String) : Declaring TypeId := fun sig =>
  match sig.typeNamed? name with
  | some t => (.ok t, sig)
  | none =>
    match Serial.ofNat? sig.types.size with
    | some i => (.ok ⟨i⟩, { sig with types := sig.types.push name () })
    | none => (.error (.tooManyTypes name), sig)

/-- Files a symbol under its name. -/
def file (sig : Signature) (name : String) (type : TypeId) : Role → Signature
  | .var => { sig with vars := sig.vars.push name type }
  | .op => { sig with operators := sig.operators.push name type }

/-- Declares a symbol. The limit on their number comes first, then the name itself, then whether it
is free. -/
def declare (role : Role) (name : String) (type : TypeId) : Declaring Symbol := fun sig =>
  match Serial.ofNat? (sig.table role).size with
  | none => (.error (.tooManySymbols name), sig)
  | some i =>
    if usable name then
      if (sig.symbolNamed? name).isSome then (.error (.taken name), sig)
      else (.ok (role.symbol i), sig.file name type role)
    else (.error (.unusable name), sig)

/-- Declares symbols of one sort and one type. -/
def declareAll (role : Role) (type : TypeId) : List String → Declaring Unit
  | [] => pure ()
  | name :: names => do
    let _ ← declare role name type
    declareAll role type names

end Signature

end Lemmata
