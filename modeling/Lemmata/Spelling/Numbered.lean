import Lemmata.Spelling.Printer
import Lemmata.Spelling.Reader
import Lemmata.Term.Substitution
import Lemmata.Text.Serial

/-!
# The numbered spelling

Without a signature, symbols are spelled by number: `x3` is the fourth variable, `s12` the
thirteenth operator and `_` the hole. Messages show terms in this spelling.
-/

namespace Lemmata

namespace Symbol

/-- The numbered spelling of a symbol. -/
def write : Symbol → String
  | var i => "x" ++ i.write
  | op i => "s" ++ i.write
  | hole => "_"

/-- Reads the numbered spelling of a symbol, blanks around it aside. -/
def read? (text : String) : Option Symbol :=
  match Text.trim text.toList with
  | ['_'] => some hole
  | 'x' :: cs => (Serial.read? cs).map var
  | 's' :: cs => (Serial.read? cs).map op
  | _ => none

instance : ToString Symbol :=
  ⟨write⟩

end Symbol

namespace Term

/-- The numbered spelling of a term. -/
def write (t : Term) : String :=
  Spelling.write Symbol.write t

/-- Reads the numbered spelling of a term. -/
def read (text : String) : Except Spelling.ReadError Term :=
  Spelling.read Symbol.read? text

instance : ToString Term :=
  ⟨write⟩

end Term

/-- The bindings of a substitution, in the order of their variables. -/
def Substitution.write (σ : Substitution) : String :=
  "(" ++ ", ".intercalate (σ.bindings.map fun (v, t) => (Symbol.var v).write ++ " -> " ++ t.write) ++ ")"

namespace Spelling

/-- Why a text is not the numbered spelling of something. -/
inductive Misspelling where
  | symbol (text : String)
  | term (text : String) (cause : ReadError)

def Misspelling.message : Misspelling → String
  | symbol text => s!"failed to parse atom: '{text}'"
  | term text cause => s!"failed to parse '{text}': " ++ cause.message text

/-- The symbol with this numbered spelling. -/
def symbolNumbered (text : String) : Except Misspelling Symbol :=
  match Symbol.read? text with
  | some s => .ok s
  | none => .error (.symbol text)

/-- The term with this numbered spelling. -/
def termNumbered (text : String) : Except Misspelling Term :=
  (Term.read text).mapError (.term text)

end Spelling

end Lemmata
