/-!
# JSON values

A JSON text as a tree. Numbers stay as they are written, since readers differ in what they make of
them, and strings whose escapes spell no text are kept apart from those that do.
-/

namespace RoleLottery

structure Numeral where
  negative : Bool
  whole : List Char
  /-- The digits after the point; there is no point when there are none. -/
  places : List Char
  /-- Whether the exponent is negative, and its digits. -/
  exponent : Option (Bool × List Char)

inductive Json
  | null
  | bool (value : Bool)
  | number (numeral : Numeral)
  /-- There is no text when an escape is half of a surrogate pair without the other half. -/
  | string (text : Option String)
  | array (items : List Json)
  | object (members : List (Option String × Json))

namespace Json

def text? : Json → Option String
  | .string text => text
  | _ => none

def bool? : Json → Option Bool
  | .bool value => some value
  | _ => none

def numeral? : Json → Option Numeral
  | .number n => some n
  | _ => none

def items? : Json → Option (List Json)
  | .array items => some items
  | _ => none

/-- An object whose keys are all texts. -/
def members? : Json → Option (List (String × Json))
  | .object members => members.mapM fun (key, value) => key.map (·, value)
  | _ => none

def nullable? {β : Type} (read : Json → Option β) : Json → Option (Option β)
  | .null => some none
  | j => (read j).map some

def list? {β : Type} (read : Json → Option β) (j : Json) : Option (List β) := do
  (← j.items?).mapM read

/-- The values of a record with the given fields. It is written as an object, where other members
are ignored and no field may come twice, or as an array of the fields in their order, of which the
last ones may be missing. -/
def record? (fields : List String) (j : Json) : Option (List (Option Json)) :=
  match j with
  | .array items =>
    if items.length ≤ fields.length then some ((List.range fields.length).map (items[·]?))
    else none
  | j => do
    let members ← j.members?
    let valuesOf (field : String) : List Json :=
      (members.filter fun (key, _) => key == field).map (·.2)
    fields.mapM fun field =>
      match valuesOf field with
      | [] => some none
      | [value] => some (some value)
      | _ => none

end Json

end RoleLottery
