import RoleLottery.Bundle.Basic
import RoleLottery.Json.Number
import RoleLottery.Json.Parser
import RoleLottery.Json.Writer

/-!
# Bundles as JSON

A bundle is an array of entries, each with its resource and the count of a shared instance. Values
are read as they stand, neither rounded nor put into canonical form.
-/

namespace RoleLottery

variable {α : Type} [Amount α] [JsonNumber α]

def Json.amount? (j : Json) : Option α := do JsonNumber.ofNumeral? (← j.numeral?)

/-- An array of the two ends. -/
def Interval.ofJson? : Json → Option Interval
  | .array [first, last] => do some ⟨← first.uint64?, ← last.uint64?⟩
  | _ => none

/-- An object with one member, whose key tells the kind. -/
def Value.ofJson? (j : Json) : Option (Value α) :=
  match j with
  | .object [(some kind, j)] =>
    if kind = "scalar" then j.amount?.map .scalar
    else if kind = "ranges" then (j.list? Interval.ofJson?).map .ranges
    else if kind = "set" then (j.list? Json.text?).map Value.ofLabels
    else none
  | _ => none

def Resource.ofJson? (j : Json) : Option (Resource α) := do
  match ← j.record? ["name", "value", "role", "shared", "id"] with
  | [some name, some value, role, shared, id] =>
    some {
      name := ← name.text?
      value := ← Value.ofJson? value
      role := ← (role.getD .null).nullable? Json.text?
      shared := ← (shared.getD (.bool false)).bool?
      id := ← (id.getD .null).nullable? Json.text? }
  | _ => none

/-- A count has 32 bits. -/
def Entry.ofJson? (j : Json) : Option (Entry α) := do
  match ← j.record? ["resource", "shared_count"] with
  | [some resource, count] =>
    some {
      resource := ← Resource.ofJson? resource
      count := ← (count.getD .null).nullable? (Json.natUpTo? (Nat.pow 2 32 - 1)) }
  | _ => none

def Bundle.ofJsonText? (text : String) : Option (Bundle α) := do
  (← Json.parse? text).list? Entry.ofJson? |>.map Bundle.ofEntries

def Interval.json (i : Interval) : String :=
  Json.writeArray [toString i.first.toNat, toString i.last.toNat]

def Value.json : Value α → String
  | .scalar a => Json.writeObject [("scalar", JsonNumber.write a)]
  | .ranges is => Json.writeObject [("ranges", Json.writeArray (is.map Interval.json))]
  | .set s => Json.writeObject [("set", Json.writeArray (s.items.map Json.quote))]

/-- Role and id are left out when there are none. -/
def Resource.json (r : Resource α) : String :=
  let optional (key : String) (text : Option String) : List (String × String) :=
    text.toList.map fun t => (key, Json.quote t)
  Json.writeObject
    ([("name", Json.quote r.name), ("value", r.value.json)] ++ optional "role" r.role ++
      [("shared", Json.writeBool r.shared)] ++ optional "id" r.id)

def Entry.json (e : Entry α) : String :=
  Json.writeObject
    (("resource", e.resource.json) :: e.count.toList.map fun n => ("shared_count", toString n))

def Bundle.json (b : Bundle α) : String := Json.writeArray (b.entries.map Entry.json)

end RoleLottery
