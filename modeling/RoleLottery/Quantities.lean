import RoleLottery.Bundle.Basic
import RoleLottery.Table

/-!
# Quantities

The scalar amounts of resources by name alone; role, id and sharing are left out. A name whose
amount falls to zero is dropped.
-/

namespace RoleLottery

structure Quantities (α : Type) where
  amounts : Table α

namespace Quantities

variable {α : Type} [Amount α]

def empty : Quantities α := ⟨{}⟩

instance : EmptyCollection (Quantities α) := ⟨empty⟩

instance : Inhabited (Quantities α) := ⟨empty⟩

def get (q : Quantities α) (name : String) : α := (q.amounts.get? name).getD Amount.zero

/-- Stores an amount that is already rounded. -/
def put (q : Quantities α) (name : String) (amount : α) : Quantities α :=
  if Amount.isPositive amount then ⟨q.amounts.insert name amount⟩ else ⟨q.amounts.erase name⟩

def deposit (q : Quantities α) (name : String) (amount : α) : Quantities α :=
  q.put name (Amount.plus (q.get name) amount)

def withdraw (q : Quantities α) (name : String) (amount : α) : Quantities α :=
  q.put name (Amount.minus (q.get name) amount)

def ofList (amounts : List (String × α)) : Quantities α :=
  amounts.foldl (fun q e => q.deposit e.1 e.2) empty

def add (p q : Quantities α) : Quantities α :=
  q.amounts.entries.foldl (fun acc e => acc.deposit e.1 e.2) p

def sub (p q : Quantities α) : Quantities α :=
  q.amounts.entries.foldl (fun acc e => acc.withdraw e.1 e.2) p

instance : Add (Quantities α) := ⟨add⟩

instance : Sub (Quantities α) := ⟨sub⟩

/-- No amount of `q` exceeds that of `p` by as much as half a thousandth. -/
def contains (p q : Quantities α) : Bool :=
  q.amounts.entries.all fun e =>
    Amount.le Amount.zero (Amount.round (Amount.sub (p.get e.1) e.2))

def eqEntries : List (String × α) → List (String × α) → Bool
  | [], [] => true
  | e :: es, f :: fs => e.1 == f.1 && Amount.eq e.2 f.2 && eqEntries es fs
  | _, _ => false

instance : BEq (Quantities α) := ⟨fun p q => eqEntries p.amounts.entries q.amounts.entries⟩

/-- The scalar entries of a bundle, summed by name. A shared instance counts once, whatever the
number of its copies. -/
def ofBundle (b : Bundle α) : Quantities α :=
  b.resources.foldl
    (fun q r => match r.value.amount? with
      | some a => q.deposit r.name a
      | none => q)
    empty

/-- `name:amount`, sorted by name. -/
def text [DecimalText α] (q : Quantities α) : String :=
  "; ".intercalate (q.amounts.entries.map fun e => e.1 ++ ":" ++ DecimalText.write e.2)

end Quantities

end RoleLottery
