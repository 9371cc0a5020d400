import RoleLottery.Amount
import RoleLottery.DecimalText
import RoleLottery.Interval
import RoleLottery.Labels

/-!
# Resource values

A value is a scalar amount, a list of number ranges, or a set of labels.
-/

namespace RoleLottery

inductive Value (α : Type)
  | scalar (amount : α)
  /-- Ranges of numbers, such as ports. -/
  | ranges (intervals : List Interval)
  | set (labels : Labels)

namespace Value

variable {α : Type} [Amount α]

def ofAmount (a : α) : Value α := .scalar (Amount.round a)

def ofRanges (is : List Interval) : Value α := .ranges (Interval.canonicalize is)

def ofLabels (labels : List String) : Value α := .set (Labels.ofList labels)

def eq : Value α → Value α → Bool
  | .scalar a, .scalar b => Amount.eq a b
  | .ranges is, .ranges js => is == js
  | .set s, .set t => s == t
  | _, _ => false

instance : BEq (Value α) := ⟨eq⟩

def amount? : Value α → Option α
  | .scalar a => some a
  | _ => none

def isScalar (v : Value α) : Bool := v.amount?.isSome

/-- The value holds nothing. A scalar holds nothing below half a thousandth. -/
def isEmpty : Value α → Bool
  | .scalar a => Amount.thousandths a ≤ 0
  | .ranges is => is.isEmpty
  | .set s => s.isEmpty

def hasKindOf : Value α → Value α → Bool
  | .scalar _, .scalar _ => true
  | .ranges _, .ranges _ => true
  | .set _, .set _ => true
  | _, _ => false

/-- The second value fits entirely inside the first; values of different kinds never do. -/
def contains : Value α → Value α → Bool
  | .scalar a, .scalar b => Amount.thousandths b ≤ Amount.thousandths a
  | .ranges is, .ranges js => js.all (·.fitsIn is)
  | .set s, .set t => t.isSubset s
  | _, _ => false

/-- Both values together; a value of another kind is left aside. -/
def merge : Value α → Value α → Value α
  | .scalar a, .scalar b => .scalar (Amount.plus a b)
  | .ranges is, .ranges js => .ranges (Interval.canonicalize (is ++ js))
  | .set s, .set t => .set (s.union t)
  | v, _ => v

def remove : Value α → Value α → Value α
  | .scalar a, .scalar b => .scalar (Amount.minus a b)
  | .ranges is, .ranges js => .ranges (js.foldl Interval.cutOut is)
  | .set s, .set t => .set (s.diff t)
  | v, _ => v

end Value

/-- `first-last`. -/
def Interval.text (i : Interval) : String :=
  toString i.first.toNat ++ "-" ++ toString i.last.toNat

/-- A scalar is its number, ranges stand in brackets and labels in braces. -/
def Value.text {α : Type} [DecimalText α] : Value α → String
  | .scalar a => DecimalText.write a
  | .ranges is => "[" ++ ", ".intercalate (is.map Interval.text) ++ "]"
  | .set s => "\x7b" ++ ", ".intercalate s.items ++ "\x7d"

end RoleLottery
