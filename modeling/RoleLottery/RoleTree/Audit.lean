import RoleLottery.RoleTree.Weights

/-!
# Audit of role trees

The audit follows the links of any tree, however it came about, and reports the first breach of what
holds in a tree that the operations built.
-/

namespace RoleLottery

inductive TreeBreach (ω : Type)
  | rootNotInternal
  | leafWithChildren (path : String)
  | unregisteredLeaf (path client : String)
  | childlessInternal (path : String)
  | freedChild (path : String)
  | wrongParent (path : String)
  | stalePath (path : String)
  | inactiveBefore (path : String)
  | leafCount (leaves clients : Nat)
  | staleWeight (path : String) (kept configured : ω)

def TreeBreach.message {ω : Type} (write : ω → String) : TreeBreach ω → String
  | .rootNotInternal => "root is not internal"
  | .leafWithChildren path => "leaf '" ++ path ++ "' has children"
  | .unregisteredLeaf path client =>
    "leaf '" ++ path ++ "' is not registered as client '" ++ client ++ "'"
  | .childlessInternal path => "internal node '" ++ path ++ "' has no children"
  | .freedChild path => "'" ++ path ++ "' has a freed child"
  | .wrongParent path => "'" ++ path ++ "' has a wrong parent link"
  | .stalePath path => "'" ++ path ++ "' has a stale path"
  | .inactiveBefore path => "inactive leaf precedes '" ++ path ++ "'"
  | .leafCount leaves clients => toString leaves ++ " leaves but " ++ toString clients ++ " clients"
  | .staleWeight path kept configured =>
    "'" ++ path ++ "' caches weight " ++ write kept ++ " but " ++ write configured ++
      " is configured"

namespace RoleTree

variable {α ω : Type} [Amount α]

def auditNode (t : RoleTree α ω) (id : NodeId) : Except (TreeBreach ω) Unit :=
  let n := t.node id
  if n.kind.isLeaf then
    if n.children ≠ [] then .error (.leafWithChildren n.path)
    else if t.client? (t.clientOf id) ≠ some id then
      .error (.unregisteredLeaf n.path (t.clientOf id))
    else .ok ()
  else if id ≠ t.top ∧ n.children = [] then .error (.childlessInternal n.path)
  else .ok ()

/-- The links from a node to its children, and their order; `inactive` tells whether an inactive
leaf came before. -/
def auditLinks (t : RoleTree α ω) (id : NodeId) (inactive : Bool) :
    List NodeId → Except (TreeBreach ω) Unit
  | [] => .ok ()
  | child :: rest =>
    match t.node? child with
    | none => .error (.freedChild (t.node id).path)
    | some c =>
      if c.parent ≠ some id then .error (.wrongParent c.path)
      else if c.path ≠ RolePath.join (t.node id).path c.name then .error (.stalePath c.path)
      else if c.kind = .inactive then t.auditLinks id true rest
      else if inactive then .error (.inactiveBefore c.path)
      else t.auditLinks id inactive rest

/-- Audits a node and all below it, the last child first, and counts the leaves. -/
def auditWithin (t : RoleTree α ω) : Nat → NodeId → Except (TreeBreach ω) Nat
  | 0, _ => .ok 0
  | depth + 1, id => do
    t.auditNode id
    t.auditLinks id false (t.node id).children
    (t.node id).children.reverse.foldlM
      (fun leaves child => do return leaves + (← t.auditWithin depth child))
      (if (t.node id).kind.isLeaf then 1 else 0)

def audit (t : RoleTree α ω) : Except (TreeBreach ω) Unit := do
  if (t.node t.top).kind.isLeaf then throw .rootNotInternal
  let leaves ← t.auditWithin t.slots.size t.top
  if leaves ≠ t.clients.size then throw (.leafCount leaves t.clients.size)

/-- The first node, in the order of the slots, whose kept weight is not the one that is set. -/
def auditWeights [Weight ω] (t : RoleTree α ω) (weights : Table ω) :
    Except (TreeBreach ω) Unit :=
  t.slots.toList.forM fun slot =>
    match slot with
    | none => .ok ()
    | some n =>
      match n.weight with
      | none => .ok ()
      | some kept =>
        if Weight.eq kept (configured weights n.path) then .ok ()
        else .error (.staleWeight n.path kept (configured weights n.path))

end RoleTree

end RoleLottery
