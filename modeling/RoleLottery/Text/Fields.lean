/-!
# Fields

Texts divided at separators: into all their fields, or at the first separator only.
-/

namespace RoleLottery.Text

/-- The fields between the separators. There is always one field more than separators. -/
def fields (separator : Char) : List Char → List (List Char)
  | [] => [[]]
  | c :: cs =>
    match fields separator cs with
    | [] => [[c]]
    | field :: rest => if c = separator then [] :: field :: rest else (c :: field) :: rest

/-- What stands before and after the first separator. -/
def cut? (separator : Char) : List Char → Option (List Char × List Char)
  | [] => none
  | c :: cs =>
    if c = separator then some ([], cs)
    else (cut? separator cs).map fun (before, after) => (c :: before, after)

/-- A text without its last character, which has to be `last`. -/
def chop? (last : Char) (cs : List Char) : Option (List Char) :=
  if cs.getLast? = some last then some cs.dropLast else none

end RoleLottery.Text
