import Lemmata.Term.Basic

/-!
# Writing a term

The written form of a term: the name of its root, and then, if it has any, its arguments in
parentheses with a comma and a space between them.
-/

namespace Lemmata.Spelling

mutual

/-- Writes a term, with `name` for its symbols. -/
def write (name : Symbol → String) : Term → String
  | .app h [] => name h
  | .app h (t :: ts) => name h ++ "(" ++ write name t ++ writeRest name ts ++ ")"

/-- Writes the arguments after the first. -/
def writeRest (name : Symbol → String) : List Term → String
  | [] => ""
  | t :: ts => ", " ++ write name t ++ writeRest name ts

end

end Lemmata.Spelling
