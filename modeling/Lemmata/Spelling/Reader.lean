import Lemmata.Spelling.Token
import Lemmata.Term.Basic

/-!
# Reading a term

A term is written as a name, followed by its arguments in parentheses with commas between them if
it has any: `in(plus(A, B), CC)`. An empty pair of parentheses is not a list of arguments.

The reader takes one token after the other and keeps the applications whose arguments are still
being read on a stack. What a name stands for is looked up as soon as it is read, so the first
fault of a text from left to right is the one that is reported.
-/

namespace Lemmata.Spelling

/-- What is wrong with a written term. -/
inductive ReadError where
  /-- A name was due and this other token came. -/
  | notAName (found : Token)
  /-- A name was due and the text ended. -/
  | endOfText
  | unknownName (name : String)
  /-- After an argument of this name came neither a comma nor a closing parenthesis. -/
  | unclosed (name : String)
  /-- The term was complete and the text went on. -/
  | trailing
  deriving DecidableEq

/-- An application whose arguments are being read, with those read so far, last first. -/
structure Frame where
  name : String
  symbol : Symbol
  args : List Term

/-- What has just been read, and so what may come next. -/
inductive Place where
  /-- Nothing or an opening or a comma: a name has to come. -/
  | start
  /-- A name: an opening parenthesis may come. -/
  | named (name : String) (symbol : Symbol)
  /-- A whole term with its arguments. -/
  | complete (term : Term)

/-- A reading in progress: the open applications, innermost first, and the place within them. -/
structure Reading where
  frames : List Frame := []
  place : Place := .start

namespace Reading

/-- A term is complete and this token follows it. -/
def close (t : Term) : List Frame → Token → Except ReadError Reading
  | f :: fs, .comma => .ok ⟨{ f with args := t :: f.args } :: fs, .start⟩
  | f :: fs, .closing => .ok ⟨fs, .complete (.app f.symbol (t :: f.args).reverse)⟩
  | f :: _, _ => .error (.unclosed f.name)
  | [], _ => .error .trailing

/-- Reads one token, with `resolve` for the meaning of names. -/
def step (resolve : String → Option Symbol) (r : Reading) (token : Token) :
    Except ReadError Reading :=
  match r.place, token with
  | .start, .name n =>
    match resolve n with
    | some s => .ok ⟨r.frames, .named n s⟩
    | none => .error (.unknownName n)
  | .start, t => .error (.notAName t)
  | .named n s, .opening => .ok ⟨⟨n, s, []⟩ :: r.frames, .start⟩
  | .named _ s, t => close (.leaf s) r.frames t
  | .complete t, token => close t r.frames token

/-- The text has ended. -/
def finish : Reading → Except ReadError Term
  | ⟨_, .start⟩ => .error .endOfText
  | ⟨f :: _, _⟩ => .error (.unclosed f.name)
  | ⟨[], .named _ s⟩ => .ok (.leaf s)
  | ⟨[], .complete t⟩ => .ok t

end Reading

/-- Reads a sequence of tokens as one term. -/
def readTokens (resolve : String → Option Symbol) (ts : List Token) : Except ReadError Term := do
  (← ts.foldlM (Reading.step resolve) {}).finish

/-- Reads a text as one term. -/
def read (resolve : String → Option Symbol) (text : String) : Except ReadError Term :=
  readTokens resolve (tokens text)

namespace ReadError

/-- How a token that is no name is called in a message. -/
def tokenName : Token → String
  | .opening => "Open"
  | .closing => "Close"
  | .comma => "Comma"
  | .name n => n

/-- The message for an error in the given text. -/
def message (text : String) : ReadError → String
  | notAName t => "expected a name but found " ++ tokenName t
  | endOfText => "unexpected end of input"
  | unknownName n => s!"unknown name '{n}'"
  | unclosed n => s!"expected ',' or ')' after argument of '{n}'"
  | trailing => s!"unexpected trailing input in '{text}'"

end ReadError

end Lemmata.Spelling
