import RoleLottery.Binary64

/-!
# Weights

The arithmetic of weights and shares. The library runs on doubles; rational numbers are the same
arithmetic without rounding.
-/

namespace RoleLottery

class Weight (ω : Type) where
  zero : ω
  one : ω
  add : ω → ω → ω
  mul : ω → ω → ω
  div : ω → ω → ω
  lt : ω → ω → Bool
  eq : ω → ω → Bool
  isFinite : ω → Bool
  /-- Two shares differ by no more than rounding explains. -/
  isClose : ω → ω → Bool

namespace Weight

variable {ω : Type} [Weight ω]

def isPositive (w : ω) : Bool := lt zero w

/-- The larger one; what cannot be compared is passed over. -/
def larger (v w : ω) : ω := if lt v w then w else v

end Weight

instance : Weight Float where
  zero := 0
  one := 1
  add := Float.add
  mul := Float.mul
  div := Float.div
  lt v w := v < w
  eq v w := v == w
  isFinite := Float.isFinite
  isClose v w := (v - w).abs < 1e-9

instance : Weight Rat where
  zero := 0
  one := 1
  add v w := v + w
  mul v w := v * w
  div v w := v / w
  lt v w := v < w
  eq v w := v = w
  isFinite _ := true
  isClose v w := v = w

namespace Weight

@[simp]
theorem zero_rat : (zero : Rat) = 0 := rfl

@[simp]
theorem one_rat : (one : Rat) = 1 := rfl

@[simp]
theorem add_rat (v w : Rat) : add v w = v + w := rfl

@[simp]
theorem mul_rat (v w : Rat) : mul v w = v * w := rfl

@[simp]
theorem div_rat (v w : Rat) : div v w = v / w := rfl

@[simp]
theorem lt_rat (v w : Rat) : lt v w = decide (v < w) := rfl

@[simp]
theorem isPositive_rat (w : Rat) : isPositive w = decide (0 < w) := rfl

end Weight

end RoleLottery
