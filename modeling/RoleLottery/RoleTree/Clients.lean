import RoleLottery.RoleTree.Basic

/-!
# Clients of a role tree

Clients are added as inactive leaves, with the roles above them, and removed together with the roles
that have no other client. The client of a role that gets a client below it moves to a leaf of its
own, and moves back when it is the only one left.
-/

namespace RoleLottery.RoleTree

variable {α ω : Type} [Amount α]

/-! ## Adding clients -/

/-- Puts an internal node in the place of a leaf and the leaf below it. -/
def splitLeaf (t : RoleTree α ω) (leaf : NodeId) : RoleTree α ω × NodeId :=
  let n := t.node leaf
  match n.parent with
  | none => (t, leaf)
  | some parent =>
    let (t, internal) := (t.unlist leaf).sprout n.name .internal parent
    let path := RolePath.join (t.node internal).path RolePath.ownLeaf
    let t := t.modify leaf fun n =>
      { n with name := RolePath.ownLeaf, path := path, parent := some internal, weight := none }
    (t.enlist internal leaf, internal)

/-- Follows names from a node for as long as there are nodes, and returns the last node with the
names left. -/
def follow (t : RoleTree α ω) (id : NodeId) : List String → NodeId × List String
  | [] => (id, [])
  | name :: names =>
    match t.child? id name with
    | some child => t.follow child names
    | none => (id, name :: names)

def grow (t : RoleTree α ω) (parent : NodeId) : List String → RoleTree α ω × NodeId
  | [] => (t, parent)
  | name :: names =>
    let (t, child) := t.sprout name .internal parent
    t.grow child names

def plant (t : RoleTree α ω) (names : List String) : RoleTree α ω × NodeId :=
  match t.follow t.top names with
  | (id, []) => t.sprout RolePath.ownLeaf .inactive id
  | (id, names) =>
    let (t, id) := if (t.node id).kind.isLeaf then t.splitLeaf id else (t, id)
    let (t, leaf) := t.grow id names
    ((t.modify leaf fun n => { n with kind := .inactive }).relist leaf, leaf)

def add (t : RoleTree α ω) (client : String) : Except ClientFault (RoleTree α ω) :=
  match RolePath.split client with
  | .error fault => .error (.invalidPath client fault)
  | .ok names =>
    if t.clients.contains client then .error (.alreadyPresent client)
    else
      let (t, leaf) := t.plant names
      .ok { t with clients := t.clients.insert client leaf }

/-! ## Removing clients -/

/-- Makes an internal node the leaf of its client again, when that is all that is left below it. -/
def foldBack (t : RoleTree α ω) (internal own : NodeId) : RoleTree α ω :=
  let n := t.node own
  let path := (t.node internal).path
  let t := (t.unlist own).vacate own
  let t := t.modify internal fun m => { m with kind := n.kind, ledger := n.ledger }
  let t := t.relist internal
  { t with clients := t.clients.insert path internal }

/-- Releases a node without children, and collapses one with its own leaf alone. -/
def tidy (t : RoleTree α ω) (id : NodeId) : RoleTree α ω :=
  match (t.node id).children with
  | [] => (t.unlist id).vacate id
  | [child] => if (t.node child).name = RolePath.ownLeaf then t.foldBack id child else t
  | _ => t

/-- Tidies a node and all above it except the root. The steps are bounded by the number of slots. -/
def tidyUp (t : RoleTree α ω) : Nat → NodeId → RoleTree α ω
  | 0, _ => t
  | steps + 1, id =>
    if id = t.top then t
    else match (t.node id).parent with
      | none => t
      | some parent => (t.tidy id).tidyUp steps parent

def remove (t : RoleTree α ω) (client : String) :
    Except ClientFault (RoleTree α ω × Ledger α) :=
  match t.client? client with
  | none => .error (.unknown client)
  | some leaf =>
    let ledger := (t.node leaf).ledger
    let t := { t with clients := t.clients.erase client }
    let t := t.modify leaf fun n => { n with ledger := {} }
    .ok (t.tidyUp t.slots.size leaf, ledger)

/-! ## Activity -/

def setActivity (t : RoleTree α ω) (client : String) (active : Bool) :
    Except ClientFault (RoleTree α ω × Bool) :=
  match t.client? client with
  | none => .error (.unknown client)
  | some leaf =>
    let kind := if active then NodeKind.active else .inactive
    if (t.node leaf).kind = kind then .ok (t, false)
    else .ok ((t.modify leaf fun n => { n with kind := kind }).relist leaf, true)

def activeCount (t : RoleTree α ω) : Nat :=
  t.clients.values.countP fun leaf => (t.node leaf).kind = .active

end RoleLottery.RoleTree
