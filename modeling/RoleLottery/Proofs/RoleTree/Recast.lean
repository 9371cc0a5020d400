import RoleLottery.Proofs.RoleTree.Slots
import RoleLottery.RoleTree.Clients
import RoleLottery.RoleTree.Outline
import RoleLottery.Shares

/-!
# What the shape of a tree does not depend on

The operations on the shape of a tree carry weights and ledgers along without reading them. So they
do the same to a tree in which the weights or the ledgers are exchanged for others, or dropped.
-/

namespace RoleLottery.RoleTree

/-- An exchange of weights and ledgers, which takes none for none. -/
structure Recast (α β ω υ : Type) where
  weight : Option ω → Option υ
  ledger : Ledger α → Ledger β
  weight_none : weight none = none
  ledger_empty : ledger {} = {}

namespace Recast

def dropAll {α β ω υ : Type} : Recast α β ω υ := ⟨fun _ => none, fun _ => {}, rfl, rfl⟩

variable {α β ω υ : Type} (r : Recast α β ω υ) (t : RoleTree α ω)

def node (n : Node α ω) : Node β υ :=
  ⟨n.name, n.path, n.kind, n.parent, n.children, r.weight n.weight, r.ledger n.ledger⟩

def tree : RoleTree β υ := ⟨t.slots.map (·.map r.node), t.free, t.top, t.clients⟩

/-! ## What is read -/

theorem node_bareNode (name path : String) (kind : NodeKind) (parent : Option NodeId) :
    r.node (bareNode name path kind parent) = bareNode name path kind parent := by
  simp only [node, bareNode, r.weight_none, r.ledger_empty]

theorem tree_empty : r.tree empty = empty := by
  simp only [tree, empty, List.map_toArray, List.map_cons, List.map_nil, Option.map_some,
    r.node_bareNode]

@[simp]
theorem free_tree : (r.tree t).free = t.free := rfl

@[simp]
theorem top_tree : (r.tree t).top = t.top := rfl

@[simp]
theorem clients_tree : (r.tree t).clients = t.clients := rfl

@[simp]
theorem size_slots_tree : (r.tree t).slots.size = t.slots.size := by
  simp only [tree, Array.size_map]

@[simp]
theorem client?_tree (client : String) : (r.tree t).client? client = t.client? client := rfl

theorem node?_tree (id : NodeId) : (r.tree t).node? id = (t.node? id).map r.node := by
  simp only [node?, tree, Array.getElem?_map]
  cases t.slots[id]? with
  | none => rfl
  | some slot => rfl

@[simp]
theorem node_tree (id : NodeId) : (r.tree t).node id = r.node (t.node id) := by
  unfold RoleTree.node
  rw [node?_tree]
  cases t.node? id with
  | none => exact (r.node_bareNode "" "" .internal none).symm
  | some n => rfl

@[simp]
theorem clientOf_tree (id : NodeId) : (r.tree t).clientOf id = t.clientOf id := by
  simp only [clientOf, node_tree, node]

@[simp]
theorem child?_tree (id : NodeId) (name : String) :
    (r.tree t).child? id name = t.child? id name := by
  simp only [child?, node_tree, node]

@[simp]
theorem find?_tree (path : String) : (r.tree t).find? path = t.find? path := by
  have hchild : (r.tree t).child? = t.child? := by
    funext id name
    exact r.child?_tree t id name
  rw [find?, find?, hchild, top_tree]

@[simp]
theorem follow_tree (id : NodeId) (names : List String) :
    (r.tree t).follow id names = t.follow id names := by
  induction names generalizing id with
  | nil => rfl
  | cons name names ih =>
    simp only [follow, child?_tree]
    cases t.child? id name with
    | none => rfl
    | some child => exact ih child

@[simp]
theorem activeCount_tree : (r.tree t).activeCount = t.activeCount := by
  simp only [activeCount, clients_tree, node_tree, node]

theorem climb_tree (steps : Nat) (live : List NodeId) (id : NodeId) :
    (r.tree t).climb steps live id = t.climb steps live id := by
  induction steps generalizing live id with
  | zero => rfl
  | succ steps ih =>
    simp only [climb, node_tree, node]
    split
    · rfl
    · cases (t.node id).parent with
      | none => rfl
      | some parent => exact ih (id :: live) parent

@[simp]
theorem live_tree : (r.tree t).live = t.live := by
  have hclimb : (r.tree t).climb (r.tree t).slots.size = t.climb t.slots.size := by
    funext live id
    rw [size_slots_tree, climb_tree]
  simp only [live, hclimb, clients_tree, node_tree, node]

theorem sharesWithin_tree {ρ : Type} [Weight ρ] (weigh : NodeId → ρ) (live : List NodeId)
    (depth : Nat) (id : NodeId) (share : ρ) :
    (r.tree t).sharesWithin weigh live depth id share =
      t.sharesWithin weigh live depth id share := by
  induction depth generalizing id share with
  | zero => rfl
  | succ depth ih =>
    simp only [sharesWithin, liveChildren, clientOf_tree, node_tree, node, ih]

@[simp]
theorem sharesBy_tree {ρ : Type} [Weight ρ] (weigh : NodeId → ρ) :
    (r.tree t).sharesBy weigh = t.sharesBy weigh := by
  simp only [sharesBy, sharesWithin_tree, live_tree, top_tree, size_slots_tree]

@[simp]
theorem outline_tree : (r.tree t).outline = t.outline := by
  have hwithin (depth indent : Nat) (id : NodeId) :
      (r.tree t).outlineWithin depth indent id = t.outlineWithin depth indent id := by
    induction depth generalizing indent id with
    | zero => rfl
    | succ depth ih => simp only [outlineWithin, line, clientOf_tree, top_tree, node_tree, node, ih]
  rw [outline, outline, top_tree, size_slots_tree, hwithin]

/-! ## What is changed -/

theorem tree_modify {f : Node α ω → Node α ω} {g : Node β υ → Node β υ}
    (hf : ∀ n, r.node (f n) = g (r.node n)) (id : NodeId) :
    (r.tree t).modify id g = r.tree (t.modify id f) := by
  simp only [tree, modify, RoleTree.mk.injEq, and_true]
  apply Array.ext_getElem?
  intro i
  simp only [Array.getElem?_modify, Array.getElem?_map]
  split
  · cases t.slots[i]? with
    | none => rfl
    | some slot =>
      cases slot with
      | none => rfl
      | some n => simp only [Option.map_some, hf]
  · rfl

theorem tree_modify_hidden {f : Node α ω → Node α ω} (hf : ∀ n, r.node (f n) = r.node n)
    (id : NodeId) : r.tree (t.modify id f) = r.tree t := by
  rw [← r.tree_modify t (g := fun n => n) hf id]
  have hmodify : ((r.tree t).modify id fun n => n).slots = (r.tree t).slots := by
    apply Array.ext_getElem?
    intro i
    simp only [modify, Option.map_id_fun', Array.getElem?_modify, id_eq]
    exact ite_self _
  simp only [modify] at hmodify ⊢
  rw [hmodify]

theorem tree_setClients (clients : Table NodeId) :
    { r.tree t with clients := clients } = r.tree { t with clients := clients } := rfl

@[simp]
theorem occupy_tree (n : Node α ω) :
    (r.tree t).occupy (r.node n) = Prod.map r.tree id (t.occupy n) := by
  unfold occupy
  simp only [free_tree]
  cases t.free with
  | nil => simp only [Prod.map, tree, Array.map_push, Option.map_some, Array.size_map, id]
  | cons slot free =>
    simp only [Prod.map, tree, Array.map_setIfInBounds, Option.map_some, id]

@[simp]
theorem vacate_tree (id : NodeId) : (r.tree t).vacate id = r.tree (t.vacate id) := by
  simp only [vacate, tree, Array.map_setIfInBounds, Option.map_none]

@[simp]
theorem enlist_tree (parent child : NodeId) :
    (r.tree t).enlist parent child = r.tree (t.enlist parent child) := by
  unfold enlist
  simp only [node_tree, node]
  exact r.tree_modify t (fun n => rfl) parent

@[simp]
theorem unlist_tree (child : NodeId) : (r.tree t).unlist child = r.tree (t.unlist child) := by
  unfold unlist
  simp only [node_tree, node]
  cases (t.node child).parent with
  | none => rfl
  | some parent => exact r.tree_modify t (fun n => rfl) parent

@[simp]
theorem relist_tree (id : NodeId) : (r.tree t).relist id = r.tree (t.relist id) := by
  unfold relist
  simp only [node_tree, node, unlist_tree]
  cases (t.node id).parent with
  | none => rfl
  | some parent => exact r.enlist_tree (t.unlist id) parent id

@[simp]
theorem sprout_tree (name : String) (kind : NodeKind) (parent : NodeId) :
    (r.tree t).sprout name kind parent = Prod.map r.tree id (t.sprout name kind parent) := by
  simp only [sprout, node_tree]
  rw [← r.node_bareNode, occupy_tree]
  simp only [node, Prod.map, enlist_tree, id]

@[simp]
theorem splitLeaf_tree (leaf : NodeId) :
    (r.tree t).splitLeaf leaf = Prod.map r.tree id (t.splitLeaf leaf) := by
  unfold splitLeaf
  simp only [node_tree, node, unlist_tree, sprout_tree]
  cases (t.node leaf).parent with
  | none => rfl
  | some parent =>
    simp only [Prod.map, id, node_tree, node]
    rw [r.tree_modify _ (f := fun n =>
      { n with
        name := RolePath.ownLeaf
        path := RolePath.join (((t.unlist leaf).sprout (t.node leaf).name .internal parent).1.node
          ((t.unlist leaf).sprout (t.node leaf).name .internal parent).2).path RolePath.ownLeaf
        parent := some ((t.unlist leaf).sprout (t.node leaf).name .internal parent).2
        weight := none }) (fun n => by simp only [node, r.weight_none]), enlist_tree]

@[simp]
theorem grow_tree (parent : NodeId) (names : List String) :
    (r.tree t).grow parent names = Prod.map r.tree id (t.grow parent names) := by
  induction names generalizing t parent with
  | nil => rfl
  | cons name names ih =>
    simp only [grow, sprout_tree, Prod.map, id]
    exact ih (t.sprout name .internal parent).1 (t.sprout name .internal parent).2

@[simp]
theorem plant_tree (names : List String) :
    (r.tree t).plant names = Prod.map r.tree id (t.plant names) := by
  unfold plant
  rw [follow_tree, top_tree]
  generalize t.follow t.top names = followed
  obtain ⟨last, rest⟩ := followed
  cases rest with
  | nil => exact r.sprout_tree t RolePath.ownLeaf .inactive last
  | cons name rest =>
    have hsplit : (if ((r.tree t).node last).kind.isLeaf then (r.tree t).splitLeaf last
        else (r.tree t, last)) = Prod.map r.tree id
          (if (t.node last).kind.isLeaf then t.splitLeaf last else (t, last)) := by
      simp only [node_tree, node, splitLeaf_tree]
      split
      · rfl
      · rfl
    simp only [hsplit]
    generalize (if (t.node last).kind.isLeaf then t.splitLeaf last else (t, last)) = split
    obtain ⟨u, tip⟩ := split
    simp only [Prod.map, id, grow_tree]
    rw [r.tree_modify _ (f := fun n => { n with kind := .inactive }) (fun n => rfl), relist_tree]

theorem add_tree (client : String) : (r.tree t).add client = (t.add client).map r.tree := by
  unfold add
  simp only [clients_tree, plant_tree]
  cases RolePath.split client with
  | error fault => rfl
  | ok names =>
    dsimp only
    split
    · rfl
    · rfl

@[simp]
theorem foldBack_tree (internal own : NodeId) :
    (r.tree t).foldBack internal own = r.tree (t.foldBack internal own) := by
  unfold foldBack
  simp only [node_tree, unlist_tree, vacate_tree]
  rw [r.tree_modify _ (f := fun m =>
    { m with kind := (t.node own).kind, ledger := (t.node own).ledger }) (fun n => rfl),
    relist_tree]
  rfl

@[simp]
theorem tidy_tree (id : NodeId) : (r.tree t).tidy id = r.tree (t.tidy id) := by
  unfold tidy
  simp only [node_tree, node, unlist_tree, vacate_tree, foldBack_tree]
  split
  · rfl
  · split
    · rfl
    · rfl
  · rfl

@[simp]
theorem tidyUp_tree (steps : Nat) (id : NodeId) :
    (r.tree t).tidyUp steps id = r.tree (t.tidyUp steps id) := by
  induction steps generalizing t id with
  | zero => rfl
  | succ steps ih =>
    simp only [tidyUp, top_tree, node_tree, node, tidy_tree]
    split
    · rfl
    · cases (t.node id).parent with
      | none => rfl
      | some parent => exact ih (t.tidy id) parent

theorem remove_tree (client : String) :
    (r.tree t).remove client = (t.remove client).map (Prod.map r.tree r.ledger) := by
  unfold remove
  rw [client?_tree]
  cases t.client? client with
  | none => rfl
  | some leaf =>
    dsimp only
    rw [tree_setClients, clients_tree, r.tree_modify _ (f := fun n => { n with ledger := {} })
      (fun n => by simp only [node, r.ledger_empty]), tidyUp_tree, node_tree, size_slots_tree]
    rfl

theorem setActivity_tree (client : String) (active : Bool) :
    (r.tree t).setActivity client active =
      (t.setActivity client active).map (Prod.map r.tree id) := by
  unfold setActivity
  rw [client?_tree]
  cases t.client? client with
  | none => rfl
  | some leaf =>
    let kind := if active then NodeKind.active else .inactive
    change (if ((r.tree t).node leaf).kind = kind then .ok (r.tree t, false)
      else .ok (((r.tree t).modify leaf fun n => { n with kind := kind }).relist leaf, true)) =
        Except.map _ (if (t.node leaf).kind = kind then _ else _)
    simp only [node_tree, node]
    split
    · rfl
    · rw [r.tree_modify _ (f := fun n => { n with kind := kind }) (fun n => rfl), relist_tree]
      rfl

@[simp]
theorem forgetWeights_tree (id : NodeId) :
    (r.tree t).forgetWeights id = r.tree (t.forgetWeights id) := by
  have hwithin (depth : Nat) (t : RoleTree α ω) (id : NodeId) :
      (r.tree t).forgetWithin depth id = r.tree (t.forgetWithin depth id) := by
    induction depth generalizing t id with
    | zero => rfl
    | succ depth ih =>
      have hfold (children : List NodeId) (t : RoleTree α ω) :
          children.foldl (fun u child => u.forgetWithin depth child) (r.tree t) =
            r.tree (children.foldl (fun u child => u.forgetWithin depth child) t) := by
        induction children generalizing t with
        | nil => rfl
        | cons child children ihc => rw [List.foldl_cons, List.foldl_cons, ih, ihc]
      simp only [forgetWithin, node_tree, node]
      rw [r.tree_modify _ (f := fun n => { n with weight := none })
        (fun n => by simp only [node, r.weight_none]), hfold]
  rw [forgetWeights, forgetWeights, size_slots_tree, hwithin]

end Recast

end RoleLottery.RoleTree
