import RoleLottery.Binary64

/-!
# Amounts

The arithmetic of scalar resources and of the counts of shared ones. Amounts are kept to three
decimal places: every sum and difference that is stored is rounded to thousandths first. The library
runs on doubles with counts of 32 bits, which wrap around; integers that count thousandths are the
same arithmetic without rounding errors and without bounds, also for the counts.
-/

namespace RoleLottery

/-- The operations on amounts, before any rounding, and the rounding itself. -/
class Amount (α : Type) where
  zero : α
  add : α → α → α
  sub : α → α → α
  /-- The nearest amount with three decimal places. -/
  round : α → α
  /-- How many thousandths an amount holds, to the nearest. -/
  thousandths : α → Int
  lt : α → α → Bool
  le : α → α → Bool
  eq : α → α → Bool
  isFinite : α → Bool
  /-- Counts of copies wrap around at this number; with zero they have no bound. -/
  countModulus : Nat

namespace Amount

variable {α : Type} [Amount α]

def isPositive (a : α) : Bool := lt zero a

def plus (a b : α) : α := round (add a b)

/-- The stored difference, which does not fall below zero. -/
def minus (a b : α) : α :=
  let difference := sub a b
  round (if isPositive difference then difference else zero)

/-- The count that is kept of `n` copies. -/
def tally (α : Type) [inst : Amount α] (n : Nat) : Nat := n % inst.countModulus

theorem tally_tally (n : Nat) : tally α (tally α n) = tally α n := Nat.mod_mod n _

theorem tally_tally_add (m n : Nat) : tally α (tally α m + n) = tally α (m + n) :=
  Nat.mod_add_mod m _ n

/-- Counts that are lowered do not wrap around. -/
theorem tally_eq_of_le {m n : Nat} (hn : tally α n = n) (hm : m ≤ n) : tally α m = m := by
  unfold tally at *
  generalize countModulus α = k at *
  rcases Nat.eq_zero_or_pos k with rfl | hk
  · exact Nat.mod_zero m
  · exact Nat.mod_eq_of_lt (Nat.lt_of_le_of_lt hm (hn ▸ Nat.mod_lt n hk))

end Amount

instance : Amount Float where
  zero := 0
  add := Float.add
  sub := Float.sub
  round := Binary64.roundThousandths
  thousandths := Binary64.thousandths
  lt a b := a < b
  le a b := a ≤ b
  eq a b := a == b
  isFinite := Float.isFinite
  countModulus := 4294967296

/-- Exact amounts: the integer `n` stands for `n` thousandths. -/
instance : Amount Int where
  zero := 0
  add a b := a + b
  sub a b := a - b
  round := id
  thousandths := id
  lt a b := a < b
  le a b := a ≤ b
  eq a b := a = b
  isFinite _ := true
  countModulus := 0

namespace Amount

@[simp]
theorem zero_int : (zero : Int) = 0 := rfl

@[simp]
theorem isPositive_int (a : Int) : isPositive a = decide (0 < a) := rfl

@[simp]
theorem plus_int (a b : Int) : plus a b = a + b := rfl

@[simp]
theorem minus_int (a b : Int) : minus a b = max (a - b) 0 := by
  have hminus : minus a b = if 0 < a - b then a - b else 0 := by
    simp [minus, isPositive, sub, round, lt, zero]
  rw [hminus]
  omega

@[simp]
theorem thousandths_int (a : Int) : thousandths a = a := rfl

@[simp]
theorem tally_int (n : Nat) : tally Int n = n := Nat.mod_zero n

end Amount

end RoleLottery
