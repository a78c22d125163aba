/-!
# Laying out JSON

Values are written over several lines: each item of an array and each member of an object on a line
of its own, two spaces deeper than what holds it, and an empty array or object as two brackets.
Strings show every character as itself but the quote, the backslash and the control characters
below the space.
-/

namespace Lemmata.Json

/-- The lower-case hexadecimal digit of a number below sixteen. -/
def hexDigit (n : Nat) : Char :=
  if n < 10 then Char.ofNat ('0'.toNat + n) else Char.ofNat ('a'.toNat + (n - 10))

/-- A character as it stands in a string. -/
def escape (c : Char) : List Char :=
  if c = '"' then ['\\', '"']
  else if c = '\\' then ['\\', '\\']
  else if c = '\x08' then ['\\', 'b']
  else if c = '\x0c' then ['\\', 'f']
  else if c = '\n' then ['\\', 'n']
  else if c = '\r' then ['\\', 'r']
  else if c = '\t' then ['\\', 't']
  else if c.toNat < 0x20 then
    ['\\', 'u', '0', '0', hexDigit (c.toNat / 16), hexDigit (c.toNat % 16)]
  else [c]

/-- A value, written for the depth at which it stands. -/
abbrev Layout : Type :=
  Nat → String

namespace Layout

def null : Layout := fun _ =>
  "null"

def string (s : String) : Layout := fun _ =>
  "\"" ++ String.ofList (s.toList.flatMap escape) ++ "\""

/-- A line break and the indentation for a depth. -/
def newline (depth : Nat) : String :=
  "\n" ++ String.ofList (List.replicate (2 * depth) ' ')

/-- Parts between two brackets, one on a line. -/
def block (opening closing : String) (parts : List Layout) : Layout := fun depth =>
  if parts.isEmpty then opening ++ closing
  else
    opening ++ ",".intercalate (parts.map fun p => newline (depth + 1) ++ p (depth + 1))
      ++ newline depth ++ closing

def array (items : List Layout) : Layout :=
  block "[" "]" items

def object (members : List (String × Layout)) : Layout :=
  block "\x7b" "\x7d" (members.map fun m depth => string m.1 depth ++ ": " ++ m.2 depth)

/-- A string, or null for none. -/
def optional : Option String → Layout
  | some s => string s
  | none => null

/-- The text of a value that stands by itself. -/
def text (l : Layout) : String :=
  l 0

end Layout

end Lemmata.Json
