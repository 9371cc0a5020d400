import RoleLottery.Decimal.Shortest

/-!
# Writing JSON

Compact JSON texts, put together from the texts of their parts.
-/

namespace RoleLottery.Json

def hexDigitOf (n : Nat) : Char := Nat.digitChar n

/-- Quotes, backslashes and control characters are escaped, and nothing else. -/
def escape (c : Char) : List Char :=
  match c with
  | '"' => ['\\', '"']
  | '\\' => ['\\', '\\']
  | '\x08' => ['\\', 'b']
  | '\x0c' => ['\\', 'f']
  | '\n' => ['\\', 'n']
  | '\r' => ['\\', 'r']
  | '\t' => ['\\', 't']
  | c =>
    if c.toNat < 0x20 then
      ['\\', 'u', '0', '0', hexDigitOf (c.toNat / 16), hexDigitOf (c.toNat % 16)]
    else [c]

def quote (s : String) : String := "\"" ++ String.ofList (s.toList.flatMap escape) ++ "\""

def writeArray (items : List String) : String := "[" ++ ",".intercalate items ++ "]"

def writeObject (members : List (String × String)) : String :=
  "\x7b" ++ ",".intercalate (members.map fun (key, value) => quote key ++ ":" ++ value) ++ "\x7d"

def writeBool (b : Bool) : String := if b then "true" else "false"

def writeNullable {β : Type} (write : β → String) : Option β → String
  | some value => write value
  | none => "null"

end RoleLottery.Json
