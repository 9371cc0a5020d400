import RoleLottery.Ledger
import RoleLottery.RolePath

/-!
# Role trees

The tree of roles has a leaf for every client. When the path of a client is also a role above other
clients, the client is a leaf named `.` below the node of that role:

```text
  (root)
    a          internal
      b        leaf of the client a/b
      .        leaf of the client a
```

Nodes stand in numbered slots and refer to each other by number. The slot of a released node is
reused, the one released last first. No path in a tree is longer than the number of slots, which
therefore bounds the depth of every walk.
-/

namespace RoleLottery

inductive NodeKind
  | active
  | inactive
  | internal
  deriving DecidableEq, Repr

def NodeKind.isLeaf (k : NodeKind) : Bool := k ≠ .internal

def NodeKind.label : NodeKind → String
  | .active => "active"
  | .inactive => "inactive"
  | .internal => "internal"

abbrev NodeId := Nat

structure Node (α ω : Type) where
  name : String
  /-- The names from the root. -/
  path : String
  kind : NodeKind
  parent : Option NodeId
  children : List NodeId
  /-- The weight of the path, once it has been looked up. -/
  weight : Option ω
  /-- What the client of a leaf holds. -/
  ledger : Ledger α

structure RoleTree (α ω : Type) where
  slots : Array (Option (Node α ω))
  /-- The released slots, the last one first. -/
  free : List NodeId
  /-- The slot of the root. -/
  top : NodeId
  /-- The leaf of each client. -/
  clients : Table NodeId

inductive ClientFault
  | alreadyPresent (client : String)
  | unknown (client : String)
  | invalidPath (path : String) (fault : RolePath.Fault)
  deriving DecidableEq, Repr

namespace RoleTree

variable {α ω : Type} [Amount α]

def bareNode (name path : String) (kind : NodeKind) (parent : Option NodeId) : Node α ω :=
  ⟨name, path, kind, parent, [], none, {}⟩

instance : Inhabited (Node α ω) := ⟨bareNode "" "" .internal none⟩

/-- The root of a new tree. -/
def root : NodeId := 0

def empty : RoleTree α ω := ⟨#[some (bareNode "" "" .internal none)], [], root, {}⟩

instance : EmptyCollection (RoleTree α ω) := ⟨empty⟩

def node? (t : RoleTree α ω) (id : NodeId) : Option (Node α ω) := t.slots[id]?.join

/-- The node in a slot that is in use. -/
def node (t : RoleTree α ω) (id : NodeId) : Node α ω := (t.node? id).getD default

def modify (t : RoleTree α ω) (id : NodeId) (f : Node α ω → Node α ω) : RoleTree α ω :=
  { t with slots := t.slots.modify id (·.map f) }

def client? (t : RoleTree α ω) (client : String) : Option NodeId := t.clients.get? client

def clientOf (t : RoleTree α ω) (id : NodeId) : String :=
  let n := t.node id
  match n.parent with
  | some parent => if n.name = RolePath.ownLeaf then (t.node parent).path else n.path
  | none => n.path

def child? (t : RoleTree α ω) (id : NodeId) (name : String) : Option NodeId :=
  (t.node id).children.find? fun child => (t.node child).name = name

/-- The node at the end of a path, followed from the root name by name. -/
def find? (t : RoleTree α ω) (path : String) : Option NodeId :=
  (RolePath.segments path).foldlM t.child? t.top

/-! ## Slots and links -/

def occupy (t : RoleTree α ω) (n : Node α ω) : RoleTree α ω × NodeId :=
  match t.free with
  | id :: free => ({ t with slots := t.slots.setIfInBounds id (some n), free := free }, id)
  | [] => ({ t with slots := t.slots.push (some n) }, t.slots.size)

def vacate (t : RoleTree α ω) (id : NodeId) : RoleTree α ω :=
  { t with slots := t.slots.setIfInBounds id none, free := id :: t.free }

/-- Lists a node among the children of `parent`: inactive leaves stand last, all else first. -/
def enlist (t : RoleTree α ω) (parent child : NodeId) : RoleTree α ω :=
  let last := (t.node child).kind = .inactive
  t.modify parent fun n =>
    { n with children := if last then n.children ++ [child] else child :: n.children }

def unlist (t : RoleTree α ω) (child : NodeId) : RoleTree α ω :=
  match (t.node child).parent with
  | some parent => t.modify parent fun n => { n with children := n.children.filter (· ≠ child) }
  | none => t

/-- Moves a node to where its kind belongs among the children of its parent. -/
def relist (t : RoleTree α ω) (id : NodeId) : RoleTree α ω :=
  match (t.node id).parent with
  | some parent => (t.unlist id).enlist parent id
  | none => t

def sprout (t : RoleTree α ω) (name : String) (kind : NodeKind) (parent : NodeId) :
    RoleTree α ω × NodeId :=
  let (t, id) :=
    t.occupy (bareNode name (RolePath.join (t.node parent).path name) kind (some parent))
  (t.enlist parent id, id)

end RoleTree

end RoleLottery
