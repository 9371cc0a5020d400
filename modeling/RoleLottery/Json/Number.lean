import RoleLottery.Decimal.Layout
import RoleLottery.Decimal.Reader
import RoleLottery.Json.Basic

/-!
# JSON numbers

Whole numbers below a bound, and doubles. A double is not always the nearest one to what is
written: its digits are first collected into a whole number of 64 bits, digits that no longer fit
are dropped, and the number is then scaled by a power of ten.
-/

namespace RoleLottery

namespace Numeral

def natUpTo? (bound : Nat) (n : Numeral) : Option Nat :=
  if n.negative || n.places ≠ [] || n.exponent.isSome || bound < Decimal.ofDigits n.whole then none
  else some (Decimal.ofDigits n.whole)

/-- Appends digits for as long as the number fits into 64 bits, and returns the digits left. -/
def collect (significand : Nat) : List Char → Nat × List Char
  | [] => (significand, [])
  | c :: cs =>
    let next := 10 * significand + Decimal.digitValue c
    if next < Nat.pow 2 64 then collect next cs else (significand, c :: cs)

/-- Divides by a power of ten, in steps that are powers of ten themselves. -/
def scaleDown (x : Float) (power : Nat) : Float :=
  if power ≤ 308 then x / Float.ofScientific 1 false power
  else if x == 0 then x
  else scaleDown (x / 1e308) (power - 308)
termination_by power

/-- Scales by a power of ten; `none` when the result would be infinite. -/
def scale? (x : Float) (exponent : Int) : Option Float :=
  if exponent < 0 then some (scaleDown x exponent.natAbs)
  else if 308 < exponent then if x == 0 then some x else none
  else
    let y := x * Float.ofScientific 1 false exponent.toNat
    if y.isInf then none else some y

def exponentBound : Nat := Nat.pow 2 31 - 1

def magnitude? (n : Numeral) : Option Float :=
  let (significand, dropped) := collect 0 n.whole
  let (significand, ignored) := collect significand n.places
  let place := (dropped.length : Int) - (n.places.length - ignored.length : Nat)
  let x := significand.toUInt64.toFloat
  match n.exponent with
  | none => scale? x place
  | some (below, ds) =>
    let exponent := Decimal.ofDigits ds
    if exponentBound < exponent then if significand = 0 ∨ below then some 0 else none
    else scale? x (if below then place - exponent else place + exponent)

def toFloat? (n : Numeral) : Option Float :=
  n.magnitude?.map fun x => if n.negative then -x else x

end Numeral

def Json.natUpTo? (bound : Nat) (j : Json) : Option Nat := do (← j.numeral?).natUpTo? bound

def Json.uint64? (j : Json) : Option UInt64 := (j.natUpTo? (Nat.pow 2 64 - 1)).map Nat.toUInt64

/-- Numbers that JSON can carry. -/
class JsonNumber (ν : Type) where
  ofNumeral? : Numeral → Option ν
  write : ν → String

instance : JsonNumber Float where
  ofNumeral? := Numeral.toFloat?
  write := NumberStyle.json.write

end RoleLottery
