import RoleLottery.Binary64

/-!
# Shortest decimals

The decimal with the fewest digits that reads back as a given double. Every double stands for the
cell of reals that round to it; on each decimal grid, coarsest first, only the two neighbours of the
double can be the nearest grid point of that cell. All arithmetic is exact.
-/

namespace RoleLottery

/-- `coefficient * 10 ^ exponent`. -/
structure Decimal where
  coefficient : Nat
  exponent : Int

namespace Decimal

inductive Tie
  | up
  | even

def digits (n : Nat) : List Char := Nat.toDigits 10 n

def digitCount (n : Nat) : Nat := (digits n).length

/-- The exponent of the leading digit of `numerator / denominator`, both positive. -/
def leadingExponent (numerator denominator : Nat) : Int :=
  if denominator ≤ numerator then (digitCount (numerator / denominator) : Int) - 1
  else -(digitCount ((denominator - 1) / numerator) : Int)

/-- The reals that round to a double, as numerators over one `scale`; the ends belong to the cell
when it is `closed`. -/
structure Cell where
  low : Nat
  middle : Nat
  high : Nat
  scale : Nat
  closed : Bool

/-- The cell of a double in quarters of its last place. -/
def cell (x : Binary64.Magnitude) : Cell :=
  let quarter := x.exponent - 2
  let unit := Nat.pow 2 quarter.toNat
  let below := if x.narrowBelow then 1 else 2
  { low := (4 * x.mantissa - below) * unit
    middle := 4 * x.mantissa * unit
    high := (4 * x.mantissa + 2) * unit
    scale := Nat.pow 2 (-quarter).toNat
    closed := x.mantissa % 2 = 0 }

/-- The point of the grid of multiples of `10 ^ exponent` that lies in the cell and nearest to its
middle. -/
def nearestOnGrid? (tie : Tie) (c : Cell) (exponent : Int) : Option Nat :=
  let step := Nat.pow 10 exponent.toNat * c.scale
  let shift := Nat.pow 10 (-exponent).toNat
  let inside (n : Nat) : Bool :=
    if c.closed then c.low * shift ≤ n * step && n * step ≤ c.high * shift
    else c.low * shift < n * step && n * step < c.high * shift
  let below := c.middle * shift / step
  let excess := 2 * (c.middle * shift % step)
  match inside below, inside (below + 1) with
  | false, false => none
  | true, false => some below
  | false, true => some (below + 1)
  | true, true =>
    if excess < step then some below
    else if step < excess then some (below + 1)
    else match tie with
      | .up => some (below + 1)
      | .even => some (if below % 2 = 0 then below else below + 1)

def stripZeros (d : Decimal) : Decimal :=
  if h : d.coefficient ≠ 0 ∧ d.coefficient % 10 = 0 then
    stripZeros ⟨d.coefficient / 10, d.exponent + 1⟩
  else d
termination_by d.coefficient
decreasing_by omega

/-- The shortest decimal of a positive double. Seventeen digits always suffice, so the search ends
within them. -/
def shortest (tie : Tie) (x : Binary64.Magnitude) : Decimal :=
  let c := cell x
  let leading := leadingExponent c.middle c.scale
  let found := (List.range 17).findSome? fun (k : Nat) =>
    let exponent := leading - k
    (nearestOnGrid? tie c exponent).map (Decimal.mk · exponent)
  (found.getD ⟨0, 0⟩).stripZeros

end Decimal

end RoleLottery
