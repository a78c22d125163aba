/-!
# Lexemes of a JSON text

The text is scanned character by character. Between lexemes only four characters count as space.
Inside a string an escape yields a character or, with four hexadecimal digits, one unit of UTF-16;
two units make one character if they are a surrogate pair.
-/

namespace Lemmata.Json

inductive Lexeme where
  | openObject
  | closeObject
  | openArray
  | closeArray
  | colon
  | comma
  | null
  | bool (b : Bool)
  | number
  | string (text : Option String)

/-! ## Strings -/

/-- What a string is made of: characters, and units of UTF-16 that were escaped. -/
inductive Piece where
  | char (c : Char)
  | unit (u : Nat)

/-- The first unit of a surrogate pair. -/
def isHighSurrogate (u : Nat) : Bool :=
  0xD800 ≤ u && u < 0xDC00

/-- The second unit of a surrogate pair. -/
def isLowSurrogate (u : Nat) : Bool :=
  0xDC00 ≤ u && u < 0xE000

/-- The character of a surrogate pair. -/
def pairedChar (high low : Nat) : Char :=
  Char.ofNat (0x10000 + (high - 0xD800) * 0x400 + (low - 0xDC00))

/-- The characters of a string, if all its surrogates are paired. -/
def decode? : List Piece → Option (List Char)
  | [] => some []
  | .char c :: rest => (decode? rest).map (c :: ·)
  | .unit u :: rest =>
    if isHighSurrogate u then
      match rest with
      | .unit v :: rest' =>
        if isLowSurrogate v then (decode? rest').map (pairedChar u v :: ·) else none
      | _ => none
    else if isLowSurrogate u then none
    else (decode? rest).map (Char.ofNat u :: ·)

def hexDigit? (c : Char) : Option Nat :=
  if '0' ≤ c ∧ c ≤ '9' then some (c.toNat - '0'.toNat)
  else if 'a' ≤ c ∧ c ≤ 'f' then some (c.toNat - 'a'.toNat + 10)
  else if 'A' ≤ c ∧ c ≤ 'F' then some (c.toNat - 'A'.toNat + 10)
  else none

/-- The character that a backslash and this letter stand for. -/
def escaped? : Char → Option Char
  | '"' => some '"'
  | '\\' => some '\\'
  | '/' => some '/'
  | 'b' => some '\x08'
  | 'f' => some '\x0c'
  | 'n' => some '\n'
  | 'r' => some '\r'
  | 't' => some '\t'
  | _ => none

/-! ## Numbers -/

/-- How far into a number the scan is. -/
inductive NumberPart where
  | sign
  | zero
  | whole
  | point
  | fraction
  | exponent
  | exponentSign
  | exponentDigits
  deriving DecidableEq

namespace NumberPart

/-- Whether a number may end here. -/
def isComplete : NumberPart → Bool
  | zero | whole | fraction | exponentDigits => true
  | _ => false

/-- The part that a further character leads to, if it belongs to the number. -/
def next? (p : NumberPart) (c : Char) : Option NumberPart :=
  if c.isDigit then
    match p with
    | sign => some (if c = '0' then zero else whole)
    | whole => some whole
    | point | fraction => some fraction
    | exponent | exponentSign | exponentDigits => some exponentDigits
    | zero => none
  else if c = '.' then
    match p with
    | zero | whole => some point
    | _ => none
  else if c = 'e' ∨ c = 'E' then
    match p with
    | zero | whole | fraction => some exponent
    | _ => none
  else if c = '+' ∨ c = '-' then
    match p with
    | exponent => some exponentSign
    | _ => none
  else none

end NumberPart

/-! ## The scan -/

/-- Where the scan is: between lexemes or inside one. Pieces of a string come last first. -/
inductive Mode where
  | between
  /-- In a word, of which these characters must follow. -/
  | word (rest : List Char) (lexeme : Lexeme)
  | number (part : NumberPart)
  | string (pieces : List Piece)
  /-- After a backslash. -/
  | escape (pieces : List Piece)
  /-- In an escaped unit, with its value so far and the number of digits that must follow. -/
  | unit (value left : Nat) (pieces : List Piece)

/-- A scan in progress, with its lexemes last first. -/
structure Scan where
  mode : Mode := .between
  lexemes : List Lexeme := []

namespace Scan

/-- Takes a character between lexemes. -/
def begin (ls : List Lexeme) (c : Char) : Option Scan :=
  match c with
  | ' ' | '\t' | '\n' | '\r' => some ⟨.between, ls⟩
  | '\x7b' => some ⟨.between, .openObject :: ls⟩
  | '\x7d' => some ⟨.between, .closeObject :: ls⟩
  | '[' => some ⟨.between, .openArray :: ls⟩
  | ']' => some ⟨.between, .closeArray :: ls⟩
  | ':' => some ⟨.between, .colon :: ls⟩
  | ',' => some ⟨.between, .comma :: ls⟩
  | '"' => some ⟨.string [], ls⟩
  | 'n' => some ⟨.word ['u', 'l', 'l'] .null, ls⟩
  | 't' => some ⟨.word ['r', 'u', 'e'] (.bool true), ls⟩
  | 'f' => some ⟨.word ['a', 'l', 's', 'e'] (.bool false), ls⟩
  | '-' => some ⟨.number .sign, ls⟩
  | _ => (NumberPart.sign.next? c).map fun p => ⟨.number p, ls⟩

/-- Takes a character. -/
def step (s : Scan) (c : Char) : Option Scan :=
  match s.mode with
  | .between => begin s.lexemes c
  | .word [] l => begin (l :: s.lexemes) c
  | .word (k :: ks) l => if c = k then some ⟨.word ks l, s.lexemes⟩ else none
  | .number p =>
    match p.next? c with
    | some q => some ⟨.number q, s.lexemes⟩
    | none => if p.isComplete then begin (.number :: s.lexemes) c else none
  | .string ps =>
    if c = '"' then
      some ⟨.between, .string ((decode? ps.reverse).map String.ofList) :: s.lexemes⟩
    else if c = '\\' then some ⟨.escape ps, s.lexemes⟩
    else if c.toNat < 0x20 then none
    else some ⟨.string (.char c :: ps), s.lexemes⟩
  | .escape ps =>
    if c = 'u' then some ⟨.unit 0 4 ps, s.lexemes⟩
    else (escaped? c).map fun e => ⟨.string (.char e :: ps), s.lexemes⟩
  | .unit value left ps =>
    (hexDigit? c).map fun d =>
      if left ≤ 1 then ⟨.string (.unit (16 * value + d) :: ps), s.lexemes⟩
      else ⟨.unit (16 * value + d) (left - 1) ps, s.lexemes⟩

/-- The text has ended. -/
def finish (s : Scan) : Option (List Lexeme) :=
  match s.mode with
  | .between => some s.lexemes.reverse
  | .word [] l => some (l :: s.lexemes).reverse
  | .number p => if p.isComplete then some (Lexeme.number :: s.lexemes).reverse else none
  | _ => none

end Scan

/-- The lexemes of a text. -/
def lexemes? (text : String) : Option (List Lexeme) := do
  (← text.toList.foldlM Scan.step {}).finish

end Lemmata.Json
