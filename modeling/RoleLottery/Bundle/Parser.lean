import RoleLottery.Bundle.Basic
import RoleLottery.Text.Blank
import RoleLottery.Text.Fields

/-!
# Bundles written as text

A bundle is written as entries `name(role):value` between semicolons. A value is a number, ranges in
brackets or labels in braces; white space around any part does not count.
-/

namespace RoleLottery

inductive BundleFault
  /-- The entry has not the form `name:value`. -/
  | malformed (entry : String)
  /-- The amount is no number, not finite, or negative. -/
  | invalidScalar (name value : String)
  | invalidRanges (name value : String)
  deriving DecidableEq, Repr

def BundleFault.message : BundleFault → String
  | .malformed entry => "malformed resource '" ++ entry ++ "': expected name[(role)]:value"
  | .invalidScalar name value => "invalid scalar for '" ++ name ++ "': " ++ value
  | .invalidRanges name value => "invalid ranges for '" ++ name ++ "': " ++ value

namespace Bundle

variable {α : Type} [Amount α] [DecimalText α]

/-- The fields that are left when the white space around them and then the empty ones are
dropped. -/
def trimmedFields (separator : Char) (cs : List Char) : List (List Char) :=
  ((Text.fields separator cs).map Text.trim).filter (!·.isEmpty)

def parseInterval? (cs : List Char) : Option Interval := do
  let (first, last) ← Text.cut? '-' cs
  let first ← Decimal.readUInt64? (Text.trim first)
  let last ← Decimal.readUInt64? (Text.trim last)
  if last < first then none else some ⟨first, last⟩

/-- Stops at the first text that is no range. -/
def parseIntervals (name : String) : List (List Char) → Except BundleFault (List Interval)
  | [] => .ok []
  | cs :: rest =>
    match parseInterval? cs with
    | none => .error (.invalidRanges name (String.ofList cs))
    | some i => (parseIntervals name rest).map (i :: ·)

/-- The value of the entry named `name`; its first character tells the kind. -/
def parseValue (entry : List Char) (name : String) (cs : List Char) :
    Except BundleFault (Value α) :=
  match cs with
  | '[' :: rest =>
    match Text.chop? ']' rest with
    | none => .error (.invalidRanges name (String.ofList cs))
    | some inner => (parseIntervals name (trimmedFields ',' inner)).map Value.ofRanges
  | '\x7b' :: rest =>
    match Text.chop? '\x7d' rest with
    | none => .error (.malformed (String.ofList entry))
    | some inner => .ok (Value.ofLabels ((trimmedFields ',' inner).map String.ofList))
  | _ =>
    match (DecimalText.read? cs : Option α) with
    | none => .error (.invalidScalar name (String.ofList cs))
    | some a =>
      if Amount.isFinite a && !Amount.lt a Amount.zero then .ok (Value.ofAmount a)
      else .error (.invalidScalar name (String.ofList cs))

/-- The name of an entry and the role in parentheses behind it; `none` when the parenthesis is not
closed at the end. -/
def parseKey? (cs : List Char) : Option (List Char × Option (List Char)) :=
  match Text.cut? '(' cs with
  | none => some (cs, none)
  | some (name, rest) =>
    (Text.chop? ')' rest).map fun role => (Text.trim name, some (Text.trim role))

def parseEntry (entry : List Char) : Except BundleFault (Resource α) :=
  let malformed : BundleFault := .malformed (String.ofList entry)
  match Text.cut? ':' entry with
  | none => .error malformed
  | some (key, value) =>
    match parseKey? (Text.trim key) with
    | none => .error malformed
    | some (name, role) =>
      if name.isEmpty || (Text.trim value).isEmpty then .error malformed
      else
        (parseValue entry (String.ofList name) (Text.trim value)).map fun v =>
          ⟨String.ofList name, v, role.map String.ofList, false, none⟩

/-- Adds the entries in their order and stops at the first that cannot be read. -/
def parseInto (b : Bundle α) : List (List Char) → Except BundleFault (Bundle α)
  | [] => .ok b
  | entry :: rest =>
    match parseEntry entry with
    | .error fault => .error fault
    | .ok r => parseInto (b.insert r) rest

def parse (text : String) : Except BundleFault (Bundle α) :=
  parseInto empty (trimmedFields ';' text.toList)

end Bundle

end RoleLottery
