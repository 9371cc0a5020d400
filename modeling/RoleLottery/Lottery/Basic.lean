import RoleLottery.Lottery.Error
import RoleLottery.Race
import RoleLottery.RoleTree.Clients
import RoleLottery.Settings
import RoleLottery.Shares

/-!
# Lotteries

A lottery orders the active clients of a role tree at random, by their shares, and keeps account
of what all clients hold. A call that fails leaves the lottery as it was; questions about unknown
clients have empty answers.
-/

namespace RoleLottery

structure Lottery (α ω γ : Type) where
  settings : Settings
  tree : RoleTree α ω
  /-- The weights set for role paths, whether there is such a role or not. -/
  weights : Table ω
  cache : ShareCache ω
  generator : γ
  total : Quantities α
  excluded : Option Labels

namespace Lottery

variable {α ω γ : Type} [Amount α] [Weight ω]

def start (settings : Settings) (generator : γ) : Lottery α ω γ :=
  { settings := settings
    tree := {}
    weights := {}
    cache := .empty
    generator := generator
    total := {}
    excluded := settings.excluded }

/-- A lottery without clients, which draws from the seed of its settings or else from `entropy`. -/
def ofSettings (settings : Settings) (entropy : UInt64) : Lottery α ω Keystream :=
  start settings (.ofSeed (settings.seed.getD entropy))

def markDirty (l : Lottery α ω γ) : Lottery α ω γ :=
  { l with cache := { l.cache with isDirty := true } }

/-! ## Clients -/

def contains (l : Lottery α ω γ) (client : String) : Bool := l.tree.clients.contains client

def count (l : Lottery α ω γ) : Nat := l.tree.clients.size

def activeCount (l : Lottery α ω γ) : Nat := l.tree.activeCount

def add (l : Lottery α ω γ) (client : String) : Except (LotteryError α ω) (Lottery α ω γ) :=
  match l.tree.add client with
  | .error fault => .error (.client fault)
  | .ok tree => .ok { l with tree := tree }.markDirty

def remove (l : Lottery α ω γ) (client : String) : Except (LotteryError α ω) (Lottery α ω γ) :=
  match l.tree.remove client with
  | .error fault => .error (.client fault)
  | .ok (tree, ledger) => .ok { l with tree := tree, total := l.total - ledger.totals }.markDirty

def setActivity (l : Lottery α ω γ) (client : String) (active : Bool) :
    Except (LotteryError α ω) (Lottery α ω γ) :=
  match l.tree.setActivity client active with
  | .error fault => .error (.client fault)
  | .ok (tree, true) => .ok { l with tree := tree }.markDirty
  | .ok (_, false) => .ok l

def activate (l : Lottery α ω γ) (client : String) : Except (LotteryError α ω) (Lottery α ω γ) :=
  l.setActivity client true

def deactivate (l : Lottery α ω γ) (client : String) : Except (LotteryError α ω) (Lottery α ω γ) :=
  l.setActivity client false

def setWeight (l : Lottery α ω γ) (path : String) (weight : ω) :
    Except (LotteryError α ω) (Lottery α ω γ) :=
  match RolePath.split path with
  | .error fault => .error (.client (.invalidPath path fault))
  | .ok _ =>
    if !Weight.isFinite weight || Weight.lt weight Weight.zero then
      .error (.invalidWeight path weight)
    else
      let tree := match l.tree.find? path with
        | some id => l.tree.forgetWeights id
        | none => l.tree
      .ok { l with weights := l.weights.insert path weight, tree := tree }.markDirty

/-! ## Holdings -/

def withLedger (l : Lottery α ω γ) (leaf : NodeId) (ledger : Ledger α) : Lottery α ω γ :=
  { l with tree := l.tree.modify leaf fun n => { n with ledger := ledger } }

def allocate (l : Lottery α ω γ) (client agent : String) (bundle : Bundle α) :
    Except (LotteryError α ω) (Lottery α ω γ) :=
  match l.tree.client? client with
  | none => .error (.client (.unknown client))
  | some leaf =>
    let (ledger, added) := (l.tree.node leaf).ledger.add agent bundle
    .ok { l.withLedger leaf ledger with total := l.total + added }

def replace (l : Lottery α ω γ) (client agent : String) (old new : Bundle α) :
    Except (LotteryError α ω) (Lottery α ω γ) :=
  match l.tree.client? client with
  | none => .error (.client (.unknown client))
  | some leaf =>
    match (l.tree.node leaf).ledger.checkReplace agent old with
    | .error fault => .error (.ledger client agent fault)
    | .ok () =>
      let (ledger, removed, added) := (l.tree.node leaf).ledger.replace agent old new
      .ok { l.withLedger leaf ledger with total := l.total - removed + added }

def release (l : Lottery α ω γ) (client agent : String) (bundle : Bundle α) :
    Except (LotteryError α ω) (Lottery α ω γ) :=
  match l.tree.client? client with
  | none => .error (.client (.unknown client))
  | some leaf =>
    match (l.tree.node leaf).ledger.checkRelease agent bundle with
    | .error fault => .error (.ledger client agent fault)
    | .ok () =>
      let (ledger, removed) := (l.tree.node leaf).ledger.release agent bundle
      .ok { l.withLedger leaf ledger with total := l.total - removed }

def ledger (l : Lottery α ω γ) (client : String) : Ledger α :=
  match l.tree.client? client with
  | some leaf => (l.tree.node leaf).ledger
  | none => {}

def allocation (l : Lottery α ω γ) (client : String) : Table (Bundle α) :=
  (l.ledger client).holdings

def allocationOn (l : Lottery α ω γ) (client agent : String) : Bundle α :=
  ((l.ledger client).heldOn? agent).getD {}

def totals (l : Lottery α ω γ) (client : String) : Quantities α := (l.ledger client).totals

/-! ## Agents -/

/-- A lottery keeps nothing about an agent but what clients hold on it. -/
def addAgent (l : Lottery α ω γ) (_agent : String) (_capacity : Quantities α) : Lottery α ω γ := l

/-- What clients hold on an agent is not given back when the agent goes. -/
def removeAgent (l : Lottery α ω γ) (_agent : String) : Lottery α ω γ := l

/-! ## Draws -/

def exclude (l : Lottery α ω γ) (excluded : Option Labels) : Lottery α ω γ :=
  { l with excluded := excluded }

/-- The active clients with a positive share in a new order. -/
def draw [RaceTime ω] [WordSource γ] (l : Lottery α ω γ) : List String × Lottery α ω γ :=
  let (cache, tree) := l.cache.renew l.tree l.weights
  let (order, generator) :=
    Race.shuffle (cache.shares.map (·.1)) (cache.shares.map (·.2)) l.generator
  (order, { l with cache := cache, tree := tree, generator := generator })

end Lottery

end RoleLottery
