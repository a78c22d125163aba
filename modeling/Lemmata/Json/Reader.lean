import Lemmata.Json.Basic
import Lemmata.Json.Lexeme

/-!
# Reading a JSON text

A text is one value with space around it. The reader takes lexeme after lexeme and keeps the arrays
and objects that are still open on a stack.
-/

namespace Lemmata.Json

/-- An open array or object, with what it holds so far, last first. -/
inductive Frame where
  | array (items : List Json)
  /-- An object and the name of the member whose value is being read. -/
  | object (members : List (Option String × Json)) (name : Option String)

/-- What may come next. -/
inductive Place where
  | value
  /-- The first item of an array, or its end. -/
  | firstItem
  /-- The first member of an object, or its end. -/
  | firstMember
  /-- A further member of an object. -/
  | member (members : List (Option String × Json))
  | colon (members : List (Option String × Json)) (name : Option String)
  /-- A value is complete. -/
  | complete (j : Json)

/-- A reading in progress, with the open frames innermost first. -/
structure Reading where
  frames : List Frame := []
  place : Place := .value

namespace Reading

/-- A value begins. -/
def beginValue (fs : List Frame) : Lexeme → Option Reading
  | .null => some ⟨fs, .complete .null⟩
  | .bool b => some ⟨fs, .complete (.bool b)⟩
  | .number => some ⟨fs, .complete .number⟩
  | .string t => some ⟨fs, .complete (.string t)⟩
  | .openArray => some ⟨fs, .firstItem⟩
  | .openObject => some ⟨fs, .firstMember⟩
  | _ => none

/-- A value is complete and this lexeme follows it. -/
def endValue (j : Json) : List Frame → Lexeme → Option Reading
  | .array items :: fs, .comma => some ⟨.array (j :: items) :: fs, .value⟩
  | .array items :: fs, .closeArray => some ⟨fs, .complete (.array (j :: items).reverse)⟩
  | .object ms n :: fs, .comma => some ⟨fs, .member ((n, j) :: ms)⟩
  | .object ms n :: fs, .closeObject => some ⟨fs, .complete (.object ((n, j) :: ms).reverse)⟩
  | _, _ => none

/-- Takes a lexeme. -/
def step (r : Reading) (l : Lexeme) : Option Reading :=
  match r.place, l with
  | .value, l => beginValue r.frames l
  | .firstItem, .closeArray => some ⟨r.frames, .complete (.array [])⟩
  | .firstItem, l => beginValue (.array [] :: r.frames) l
  | .firstMember, .closeObject => some ⟨r.frames, .complete (.object [])⟩
  | .firstMember, .string n => some ⟨r.frames, .colon [] n⟩
  | .firstMember, _ => none
  | .member ms, .string n => some ⟨r.frames, .colon ms n⟩
  | .member _, _ => none
  | .colon ms n, .colon => some ⟨.object ms n :: r.frames, .value⟩
  | .colon _ _, _ => none
  | .complete j, l => endValue j r.frames l

/-- The text has ended. -/
def finish : Reading → Option Json
  | ⟨[], .complete j⟩ => some j
  | _ => none

end Reading

/-- Reads a text as one value. -/
def read? (text : String) : Option Json := do
  (← (← lexemes? text).foldlM Reading.step {}).finish

end Lemmata.Json
