/-!
# Serial numbers

Symbols and types are numbered with 16 bits, in order of declaration. A number is written in
decimal without leading zeros. The reader is more lenient than the writer: it also takes one
leading plus sign and any number of leading zeros, and refuses what does not fit in 16 bits.
-/

namespace Lemmata

/-- The number of a variable, an operator or a type. -/
abbrev Serial := Fin 65536

namespace Serial

/-- The number as a serial number, when it fits. -/
def ofNat? (n : Nat) : Option Serial :=
  if h : n < 65536 then some ⟨n, h⟩ else none

/-- The decimal digits of the number. -/
def write (i : Serial) : String :=
  toString i.val

/-- Whether the character is one of the ten ASCII digits. -/
def isDigit (c : Char) : Bool :=
  '0' ≤ c && c ≤ '9'

/-- Reads a nonempty sequence of digits. -/
def readDigits? (cs : List Char) : Option Serial :=
  if cs ≠ [] ∧ cs.all isDigit then ofNat? (Nat.ofDigitChars 10 cs 0) else none

/-- Reads digits, possibly after one plus sign. -/
def read? : List Char → Option Serial
  | '+' :: cs => readDigits? cs
  | cs => readDigits? cs

end Serial

end Lemmata
