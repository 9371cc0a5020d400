import RoleLottery.Decimal.Shortest

/-!
# Read numbers

Reading of decimal texts: doubles with the nearest value, and whole numbers of 64 bits.
-/

namespace RoleLottery.Decimal

def digitValue (c : Char) : Nat := c.toNat - '0'.toNat

def ofDigits (ds : List Char) : Nat := ds.foldl (fun n c => 10 * n + digitValue c) 0

/-- The nearest double. Magnitudes outside the range of the doubles are settled by the place of the
leading digit, so that no huge power is ever formed. -/
def toFloat (d : Decimal) : Float :=
  let beyond := d.exponent + digitCount d.coefficient
  if d.coefficient = 0 ∨ beyond < -330 then 0
  else if 310 < beyond then Binary64.infinity
  else Float.ofScientific d.coefficient (d.exponent < 0) d.exponent.natAbs

def splitSign : List Char → Bool × List Char
  | '-' :: cs => (true, cs)
  | '+' :: cs => (false, cs)
  | cs => (false, cs)

def readExponent? : List Char → Option Int
  | [] => some 0
  | c :: cs =>
    if c = 'e' ∨ c = 'E' then
      let (negative, ds) := splitSign cs
      if ds ≠ [] ∧ ds.all Char.isDigit then
        some (if negative then -(ofDigits ds : Int) else ofDigits ds)
      else none
    else none

/-- Digits with an optional point, at least one digit in all, and an optional exponent. -/
def readUnsigned? (cs : List Char) : Option Decimal :=
  let whole := cs.takeWhile Char.isDigit
  let rest := cs.dropWhile Char.isDigit
  let (places, rest) := match rest with
    | '.' :: rest => (rest.takeWhile Char.isDigit, rest.dropWhile Char.isDigit)
    | _ => ([], rest)
  if whole = [] ∧ places = [] then none
  else (readExponent? rest).map fun e => ⟨ofDigits (whole ++ places), e - places.length⟩

/-- A double written with an optional sign: a decimal, `inf`, `infinity` or `nan` in any letter
case. -/
def read? (cs : List Char) : Option Float :=
  let (negative, rest) := splitSign cs
  let word := String.ofList (rest.map Char.toLower)
  let value :=
    if word = "inf" ∨ word = "infinity" then some Binary64.infinity
    else if word = "nan" then some (0 / 0)
    else (readUnsigned? rest).map toFloat
  if negative then value.map Float.neg else value

def readUInt64? (cs : List Char) : Option UInt64 :=
  let ds := match cs with
    | '+' :: ds => ds
    | ds => ds
  if ds ≠ [] ∧ ds.all Char.isDigit ∧ ofDigits ds < Nat.pow 2 64 then some (ofDigits ds).toUInt64
  else none

end RoleLottery.Decimal
