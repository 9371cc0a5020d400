import RoleLottery.Decimal.Shortest

/-!
# Written numbers

Doubles are written with their shortest digits, in one of two styles: the plain style of displayed
texts, which never uses an exponent, and the style of JSON numbers.
-/

namespace RoleLottery

namespace Decimal

/-- Digits and exponent written out in full, with zeros in the places that have no digit. -/
def positional (ds : List Char) (exponent : Int) : List Char :=
  if 0 ≤ exponent then ds ++ List.replicate exponent.toNat '0'
  else
    let places := (-exponent).toNat
    if places < ds.length then ds.take (ds.length - places) ++ '.' :: ds.drop (ds.length - places)
    else '0' :: '.' :: (List.replicate (places - ds.length) '0' ++ ds)

/-- One digit before the point and a signed exponent. -/
def scientific (ds : List Char) (leading : Int) : List Char :=
  let exponent := (if leading < 0 then '-' else '+') :: digits leading.natAbs
  match ds with
  | [] => []
  | [d] => d :: 'e' :: exponent
  | d :: rest => d :: '.' :: (rest ++ 'e' :: exponent)

end Decimal

/-- What a format decides about its numbers beyond their digits. -/
structure NumberStyle where
  tie : Decimal.Tie
  /-- The exponents of the leading digit that are written out in full. -/
  isPositional : Int → Bool
  /-- Whole numbers that are written out end in `.0`. -/
  marksWhole : Bool
  notANumber : String
  infinity : String
  negativeInfinity : String

namespace NumberStyle

/-- Displayed numbers are always written out, and a tie goes to the larger digit. -/
def display : NumberStyle where
  tie := .up
  isPositional _ := true
  marksWhole := false
  notANumber := "NaN"
  infinity := "inf"
  negativeInfinity := "-inf"

/-- JSON numbers are written out from `0.00001` up to sixteen digits before the point; what JSON
cannot say is `null`. -/
def json : NumberStyle where
  tie := .even
  isPositional leading := -5 ≤ leading && leading ≤ 15
  marksWhole := true
  notANumber := "null"
  infinity := "null"
  negativeInfinity := "null"

def writeMagnitude (style : NumberStyle) (x : Float) : List Char :=
  let d := if x == 0 then ⟨0, 0⟩ else Decimal.shortest style.tie (Binary64.magnitude x)
  let ds := Decimal.digits d.coefficient
  let leading := d.exponent + ds.length - 1
  if style.isPositional leading then
    Decimal.positional ds d.exponent ++
      (if style.marksWhole && 0 ≤ d.exponent then ['.', '0'] else [])
  else Decimal.scientific ds leading

def write (style : NumberStyle) (x : Float) : String :=
  if x.isNaN then style.notANumber
  else if x.isInf then if Binary64.isNegative x then style.negativeInfinity else style.infinity
  else String.ofList
    ((if Binary64.isNegative x then ['-'] else []) ++ style.writeMagnitude x)

end NumberStyle

end RoleLottery
