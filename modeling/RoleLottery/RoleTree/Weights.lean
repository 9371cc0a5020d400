import RoleLottery.RoleTree.Basic
import RoleLottery.Weight

/-!
# Weights in a role tree

The nodes that lead to active clients, and the weights of nodes. A weight is set for a path; a node
keeps it once it has been looked up, until it is forgotten.
-/

namespace RoleLottery.RoleTree

variable {α ω : Type} [Amount α]

/-- Adds a node and those above it, up to the first that is already there. -/
def climb (t : RoleTree α ω) : Nat → List NodeId → NodeId → List NodeId
  | 0, live, _ => live
  | steps + 1, live, id =>
    if live.contains id then live
    else match (t.node id).parent with
      | none => id :: live
      | some parent => t.climb steps (id :: live) parent

/-- The active leaves and the nodes above them. -/
def live (t : RoleTree α ω) : List NodeId :=
  (t.clients.values.filter fun leaf => (t.node leaf).kind = .active).foldl
    (t.climb t.slots.size) []

/-- The weight set for a path, one when there is none. -/
def configured [Weight ω] (weights : Table ω) (path : String) : ω :=
  (weights.get? path).getD Weight.one

/-- The weight of a node, as it was looked up before or as it is set. -/
def weight [Weight ω] (t : RoleTree α ω) (weights : Table ω) (id : NodeId) : ω :=
  (t.node id).weight.getD (configured weights (t.node id).path)

def keepWeight [Weight ω] (t : RoleTree α ω) (weights : Table ω) (id : NodeId) : RoleTree α ω :=
  t.modify id fun n => { n with weight := some (n.weight.getD (configured weights n.path)) }

/-- Forgets the weights of a node and all below it, down to a depth. -/
def forgetWithin (t : RoleTree α ω) : Nat → NodeId → RoleTree α ω
  | 0, _ => t
  | depth + 1, id =>
    (t.node id).children.foldl (fun t child => t.forgetWithin depth child)
      (t.modify id fun n => { n with weight := none })

def forgetWeights (t : RoleTree α ω) (id : NodeId) : RoleTree α ω := t.forgetWithin t.slots.size id

end RoleLottery.RoleTree
