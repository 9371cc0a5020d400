/-!
# Quoted text

Text between quotes, in which what would not be seen on a page is written as an escape.
-/

namespace RoleLottery.Text

def hexDigits (n : Nat) : List Char := Nat.toDigits 16 n

/-- The character as it stands in quotes. -/
def escape (isPrintable : Char → Bool) (c : Char) : List Char :=
  match c with
  | '\x00' => ['\\', '0']
  | '\t' => ['\\', 't']
  | '\r' => ['\\', 'r']
  | '\n' => ['\\', 'n']
  | '"' => ['\\', '"']
  | '\\' => ['\\', '\\']
  | c => if isPrintable c then [c] else ['\\', 'u', '\x7b'] ++ hexDigits c.toNat ++ ['\x7d']

def quote (isPrintable : Char → Bool) (s : String) : String :=
  "\"" ++ String.ofList (s.toList.flatMap (escape isPrintable)) ++ "\""

end RoleLottery.Text
