/-!
# Binary64 numbers

What the rest of the library needs of double precision beyond the arithmetic of `Float`: rounding to
a whole number with halves going away from zero, the nearest count of thousandths, and a total order
that also places the zeros and the numbers that are not numbers.
-/

namespace RoleLottery.Binary64

/-- The sign bit, set also for `-0`. -/
def isNegative (x : Float) : Bool := x.toBits >>> 63 == 1

def infinity : Float := 1 / 0

/-- The least magnitude from which on every number is whole. -/
private def wholeFrom : Float := 4503599627370496

/-- The nearest whole number; halves go away from zero and the sign stays, also on a zero. -/
def roundHalfAway (x : Float) : Float :=
  if x.abs < wholeFrom then
    let below := x.abs.toUInt64.toFloat
    let magnitude := if x.abs - below < 0.5 then below else below + 1
    if isNegative x then -magnitude else magnitude
  else x

def roundThousandths (x : Float) : Float := roundHalfAway (x * 1000) / 1000

/-- A whole number as a 64-bit signed integer: out of range it stays at the bound, and what is not a
number counts as zero. -/
def toClampedInt (x : Float) : Int :=
  let magnitude := x.abs.toUInt64.toNat
  if isNegative x then -(min magnitude (Nat.pow 2 63) : Nat)
  else (min magnitude (Nat.pow 2 63 - 1) : Nat)

/-- How many thousandths `x` holds, to the nearest, within the 64-bit signed integers. -/
def thousandths (x : Float) : Int := toClampedInt (roundHalfAway (x * 1000))

/-- The place of a number in the total order: negative numbers from `-∞` up to `-0`, then `0` up to
`∞`, with what is not a number outside by its sign. -/
def rank (x : Float) : Int :=
  let bits : Nat := x.toBits.toNat
  if bits < Nat.pow 2 63 then (bits : Int) else Nat.pow 2 63 - 1 - (bits : Int)

/-- A finite magnitude is `mantissa * 2 ^ exponent`. -/
structure Magnitude where
  mantissa : Nat
  exponent : Int
  /-- The next smaller double is only half as far away as the next larger one. -/
  narrowBelow : Bool

/-- The magnitude of a finite number; meaningless for the others. -/
def magnitude (x : Float) : Magnitude :=
  let bits : Nat := x.toBits.toNat % Nat.pow 2 63
  let biased : Nat := bits / Nat.pow 2 52
  let fraction : Nat := bits % Nat.pow 2 52
  if biased = 0 then ⟨fraction, -1074, false⟩
  else ⟨Nat.pow 2 52 + fraction, (biased : Int) - 1075, fraction = 0 ∧ 1 < biased⟩

end RoleLottery.Binary64
