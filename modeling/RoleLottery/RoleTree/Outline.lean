import RoleLottery.RoleTree.Basic

/-!
# Outline of a role tree

A tree as text, with one line for each node.
-/

namespace RoleLottery.RoleTree

variable {α ω : Type} [Amount α]

def line (t : RoleTree α ω) (id : NodeId) : String :=
  let n := t.node id
  (if id = t.top then "(root)" else n.name) ++ " [" ++ n.kind.label ++ "]" ++
    (if n.kind.isLeaf then " client=" ++ t.clientOf id else "") ++ "\n"

def outlineWithin (t : RoleTree α ω) : Nat → Nat → NodeId → String
  | 0, _, _ => ""
  | depth + 1, indent, id =>
    (t.node id).children.foldl (fun text child => text ++ t.outlineWithin depth (indent + 2) child)
      (String.ofList (List.replicate indent ' ') ++ t.line id)

/-- One line for each node, indented below its parent. -/
def outline (t : RoleTree α ω) : String := t.outlineWithin t.slots.size 0 t.top

end RoleLottery.RoleTree
