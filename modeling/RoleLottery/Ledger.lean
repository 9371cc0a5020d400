import RoleLottery.Quantities

/-!
# Ledgers

A ledger records what a client holds on each agent, together with the totals of its scalar
resources. A shared instance counts towards the totals once for each agent that has copies of it,
however many.
-/

namespace RoleLottery

structure Ledger (α : Type) where
  holdings : Table (Bundle α)
  totals : Quantities α

inductive LedgerFault (α : Type)
  /-- Nothing is held on the agent. -/
  | nothingHeld
  | insufficientHoldings (held requested : Bundle α)
  /-- The totals are smaller. -/
  | insufficientTotals (totals requested : Quantities α)

namespace Ledger

variable {α : Type} [Amount α]

def empty : Ledger α := ⟨{}, {}⟩

instance : EmptyCollection (Ledger α) := ⟨empty⟩

instance : Inhabited (Ledger α) := ⟨empty⟩

def heldOn? (l : Ledger α) (agent : String) : Option (Bundle α) := l.holdings.get? agent

/-- Records what is held on an agent now; an empty bundle leaves no record. -/
def settle (holdings : Table (Bundle α)) (agent : String) (held : Bundle α) : Table (Bundle α) :=
  if held.isEmpty then holdings.erase agent else holdings.insert agent held

/-- Records a bundle as held, and returns what it adds to the totals: quantities, and the shared
instances of which the agent had no copy. -/
def add (l : Ledger α) (agent : String) (delta : Bundle α) : Ledger α × Quantities α :=
  if delta.isEmpty then (l, {})
  else
    let held := (l.heldOn? agent).getD {}
    let firstCopies := delta.shared.filter fun r => !held.holds r 1
    let added := Quantities.ofBundle (delta.unshared + firstCopies).scalars
    (⟨l.holdings.insert agent (held + delta), l.totals + added⟩, added)

def checkRelease (l : Ledger α) (agent : String) (delta : Bundle α) :
    Except (LedgerFault α) Unit :=
  match l.heldOn? agent with
  | none => .error .nothingHeld
  | some held =>
    if held.contains delta then .ok () else .error (.insufficientHoldings held delta)

/-- A bundle can be replaced when it can be released and the totals cover its scalars. -/
def checkReplace (l : Ledger α) (agent : String) (old : Bundle α) :
    Except (LedgerFault α) Unit :=
  match l.checkRelease agent old with
  | .error fault => .error fault
  | .ok () =>
    let requested := Quantities.ofBundle old.scalars
    if l.totals.contains requested then .ok () else .error (.insufficientTotals l.totals requested)

/-- Releases a bundle, and returns what it takes from the totals: quantities, and the shared
instances whose last copy is gone. -/
def release (l : Ledger α) (agent : String) (delta : Bundle α) : Ledger α × Quantities α :=
  match l.heldOn? agent with
  | none => (l, {})
  | some held =>
    let left := held - delta
    let lastCopies := delta.shared.filter fun r => !left.holds r 1
    let removed := Quantities.ofBundle (delta.unshared + lastCopies).scalars
    (⟨settle l.holdings agent left, l.totals - removed⟩, removed)

/-- Replaces one bundle by another, and returns what the totals lose and gain. Here every scalar
counts, also that of a shared instance with other copies. -/
def replace (l : Ledger α) (agent : String) (old new : Bundle α) :
    Ledger α × Quantities α × Quantities α :=
  let removed := Quantities.ofBundle old.scalars
  let added := Quantities.ofBundle new.scalars
  let held := (l.heldOn? agent).getD {} - old + new
  (⟨settle l.holdings agent held, l.totals - removed + added⟩, removed, added)

def recount (l : Ledger α) : Quantities α :=
  l.holdings.values.foldl (fun acc held => acc + Quantities.ofBundle held.scalars) {}

end Ledger

end RoleLottery
