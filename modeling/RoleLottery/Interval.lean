/-!
# Intervals of 64-bit numbers

Lists of closed intervals, as in the ranges of ports. A list is canonical when its intervals are not
inverted, ascend, and leave at least one number out between neighbours.
-/

namespace RoleLottery

/-- The numbers from `first` to `last`, both included; none when it is inverted. -/
structure Interval where
  first : UInt64
  last : UInt64
  deriving DecidableEq

namespace Interval

/-- Some number lies between the end of `i` and the start of `j`. -/
def leavesGap (i j : Interval) : Bool := i.last.toNat + 1 < j.first.toNat

def hull (i j : Interval) : Interval := ⟨min i.first j.first, max i.last j.last⟩

def absorb (i : Interval) : List Interval → List Interval
  | [] => [i]
  | j :: js =>
    if i.leavesGap j then i :: j :: js
    else if j.leavesGap i then j :: absorb i js
    else absorb (i.hull j) js

/-- The canonical list of the numbers that the intervals cover together. -/
def canonicalize (is : List Interval) : List Interval :=
  (is.filter fun i => i.first ≤ i.last).foldl (fun acc i => absorb i acc) []

def fitsIn (j : Interval) (is : List Interval) : Bool :=
  is.any fun i => i.first ≤ j.first && j.last ≤ i.last

def minus (i cut : Interval) : List Interval :=
  if cut.last < i.first || i.last < cut.first then [i]
  else
    (if i.first < cut.first then [⟨i.first, cut.first - 1⟩] else []) ++
      (if cut.last < i.last then [⟨cut.last + 1, i.last⟩] else [])

/-- What is left of a list when the numbers of `cut` are taken out. -/
def cutOut (is : List Interval) (cut : Interval) : List Interval := is.flatMap (minus · cut)

end Interval

end RoleLottery
