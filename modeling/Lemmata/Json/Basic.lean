/-!
# JSON values

Values as a reader finds them: members of an object in their order with repetitions, numbers as a
fact without a value, and strings as text where they have one. An escape may name half of a
surrogate pair and leave the other half out; such a string stands for no text. It does no harm
where nobody asks for the text.
-/

namespace Lemmata

/-- A JSON value. -/
inductive Json where
  | null
  | bool (b : Bool)
  | number
  | string (text : Option String)
  | array (items : List Json)
  | object (members : List (Option String × Json))

namespace Json

def bool? : Json → Option Bool
  | bool b => some b
  | _ => none

/-- The text of a string that has one. -/
def text? : Json → Option String
  | string t => t
  | _ => none

/-- The items of an array, each decoded. -/
def list? {α : Type} (item? : Json → Option α) : Json → Option (List α)
  | array items => items.mapM item?
  | _ => none

/-! ## Records -/

/-- The fields of a record with these names, in their order; a field left out is `none`. A record is
an object, in which other members are ignored, or an array of its first fields. A name may not come
twice, every member's name must be text, and an array may not be longer than the record. -/
def fields? (names : List String) : Json → Option (List (Option Json))
  | object members =>
    if members.all (·.1.isSome) ∧ ∀ n ∈ names, members.countP (·.1 == some n) ≤ 1 then
      some (names.map fun n => members.lookup (some n))
    else none
  | array items =>
    if items.length ≤ names.length then some (names.mapIdx fun i _ => items[i]?) else none
  | _ => none

/-- A field that must be there. -/
def required {α : Type} (decode? : Json → Option α) (field : Option Json) : Option α :=
  field.bind decode?

/-- A field that takes the default when it is left out. -/
def withDefault {α : Type} (default : α) (decode? : Json → Option α) : Option Json → Option α
  | some j => decode? j
  | none => some default

end Json

end Lemmata
