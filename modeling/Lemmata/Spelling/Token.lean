import Lemmata.Text.Blank

/-!
# Tokens of a written term

A written term is made of names, parentheses and commas. A name is a longest run of characters that
are neither blank nor punctuation; blanks only separate.
-/

namespace Lemmata.Spelling

inductive Token where
  | opening
  | closing
  | comma
  | name (text : String)
  deriving DecidableEq

/-- The token that a single character makes, if it is punctuation. -/
def punctuation? : Char → Option Token
  | '(' => some .opening
  | ')' => some .closing
  | ',' => some .comma
  | _ => none

/-- Whether the character can stand in a name. -/
def isNameChar (c : Char) : Bool :=
  (punctuation? c).isNone && !Text.isBlank c

/-- The name that the collected characters make, last one first; none of them make no name. -/
def nameOf : List Char → List Token
  | [] => []
  | cs => [.name (String.ofList cs.reverse)]

/-- The tokens of a text, where `pending` are the characters of an unfinished name, last first. -/
def scan (pending : List Char) : List Char → List Token
  | [] => nameOf pending
  | c :: cs =>
    match punctuation? c with
    | some t => nameOf pending ++ t :: scan [] cs
    | none => if Text.isBlank c then nameOf pending ++ scan [] cs else scan (c :: pending) cs

/-- The tokens of a text. -/
def tokens (text : String) : List Token :=
  scan [] text.toList

end Lemmata.Spelling
