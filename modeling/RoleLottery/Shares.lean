import RoleLottery.RoleTree.Weights

/-!
# Shares

The root has the share one. Every internal node hands its share on to the children with an active
leaf at or below them, in proportion to their weights.
-/

namespace RoleLottery

variable {α ω υ : Type} [Amount α] [Weight ω]

/-- Divides a share in proportion to weights. The weights are compared with the largest one first,
so that large weights have a finite sum. -/
def divide (share : ω) (weights : List ω) : List ω :=
  let largest := weights.foldl Weight.larger Weight.zero
  let total :=
    if Weight.isPositive largest then
      (weights.map (Weight.div · largest)).foldl Weight.add Weight.zero
    else Weight.zero
  weights.map fun w =>
    if Weight.isPositive total then
      Weight.div (Weight.mul share (Weight.div w largest)) total
    else Weight.zero

namespace RoleTree

def liveChildren (t : RoleTree α υ) (live : List NodeId) (id : NodeId) : List NodeId :=
  (t.node id).children.filter live.contains

/-- The shares of the active leaves at or below a node, down to a depth, by given weights. -/
def sharesWithin (t : RoleTree α υ) (weigh : NodeId → ω) (live : List NodeId) :
    Nat → NodeId → ω → List (String × ω)
  | 0, _, _ => []
  | depth + 1, id, share =>
    match (t.node id).kind with
    | .inactive => []
    | .active => [(t.clientOf id, share)]
    | .internal =>
      let children := t.liveChildren live id
      (children.zip (divide share (children.map weigh))).flatMap fun (child, part) =>
        t.sharesWithin weigh live depth child part

/-- The active clients with their shares by given weights, in the order of the tree. -/
def sharesBy (t : RoleTree α υ) (weigh : NodeId → ω) : List (String × ω) :=
  t.sharesWithin weigh t.live t.slots.size t.top Weight.one

def shares (t : RoleTree α ω) (weights : Table ω) : List (String × ω) :=
  t.sharesBy (t.weight weights)

/-- Keeps the weights that the shares below a node depend on. -/
def keepWithin (weights : Table ω) (live : List NodeId) :
    Nat → RoleTree α ω → NodeId → RoleTree α ω
  | 0, t, _ => t
  | depth + 1, t, id =>
    if (t.node id).kind = .internal then
      let children := t.liveChildren live id
      children.foldl (keepWithin weights live depth)
        (children.foldl (fun t child => t.keepWeight weights child) t)
    else t

def keepWeights (t : RoleTree α ω) (weights : Table ω) : RoleTree α ω :=
  keepWithin weights t.live t.slots.size t t.top

end RoleTree

/-- Shares that are kept until something changes them. -/
structure ShareCache (ω : Type) where
  isDirty : Bool
  shares : List (String × ω)

namespace ShareCache

def empty : ShareCache ω := ⟨true, []⟩

/-- The cache with the present shares, and the tree with the weights looked up for them. -/
def renew (c : ShareCache ω) (t : RoleTree α ω) (weights : Table ω) :
    ShareCache ω × RoleTree α ω :=
  if c.isDirty then (⟨false, t.shares weights⟩, t.keepWeights weights) else (c, t)

end ShareCache

end RoleLottery
