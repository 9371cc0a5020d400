import RoleLottery.Proofs.RoleTree.Linked
import RoleLottery.RoleTree.Clients

/-!
# Making, dropping and moving nodes

Each change of the shape of a tree keeps the links in order, and is described by what it does to
the live slots and to the nodes in them.
-/

namespace RoleLottery.RoleTree

variable {α ω : Type} {t t' : RoleTree α ω} {out : List NodeId} {x p : NodeId}

/-! ## New nodes -/

@[simp]
theorem top_sprout (t : RoleTree α ω) (name : String) (kind : NodeKind) (p : NodeId) :
    (t.sprout name kind p).1.top = t.top := by
  simp [sprout]

/-- The tree `t'` is `t` with the new node `n` below `p`. -/
structure Sprouts (t : RoleTree α ω) (p c : NodeId) (n : Node α ω) (t' : RoleTree α ω) : Prop where
  top : t'.top = t.top
  clients : t'.clients = t.clients
  size : t.slots.size ≤ t'.slots.size
  fresh : ¬ t.Live c
  live : ∀ id, t'.Live id ↔ id = c ∨ t.Live id
  new : t'.node c = n
  old : ∀ {id}, id ≠ c → t'.node id =
    { t.node id with
      children := if id = p then t'.listed c (t.node id).children else (t.node id).children }

theorem Linked.sprout (h : t.Linked out) (name : String) (kind : NodeKind) (hp : t.Live p)
    (hkind : (t.node p).kind = .internal) (hname : RolePath.IsName name)
    (hown : name = RolePath.ownLeaf → kind.isLeaf ∧ p ≠ t.top)
    (hnew : ∀ c ∈ (t.node p).children, (t.node c).name ≠ name) :
    (t.sprout name kind p).1.Linked out ∧
      Sprouts t p (t.sprout name kind p).2
        (bareNode name (RolePath.join (t.node p).path name) kind (some p))
        (t.sprout name kind p).1 := by
  let n : Node α ω := bareNode name (RolePath.join (t.node p).path name) kind (some p)
  let c := (t.occupy n).2
  have hoccupy : (t.occupy n).1.Linked (c :: out) :=
    h.occupy rfl hname fun he => ⟨(hown he).1, by simpa [n, bareNode] using (hown he).2⟩
  have hfresh : ¬ t.Live c := h.free.not_live_occupy n
  have hself : (t.occupy n).1.node c = n := h.free.node_occupy_self n
  have hne {id : NodeId} (hid : id ≠ c) : (t.occupy n).1.node id = t.node id :=
    h.free.node_occupy_ne n hid
  have hpc : p ≠ c := fun he => hfresh (he ▸ hp)
  have hplive : (t.occupy n).1.Live p := (h.free.live_occupy n p).mpr (.inr hp)
  have hnode := (t.occupy n).1.node_enlist hplive c
  refine ⟨hoccupy.enlist hplive ?_ ?_ ?_ ?_, ?_⟩
  · rw [hne hpc, hkind]
  · rw [hself]
    rfl
  · rw [hself, hne hpc]
    rfl
  · intro d hd
    rw [hne hpc] at hd
    have hdc : d ≠ c := fun he => hfresh (he ▸ (h.down hd).1)
    rw [hne hdc, hself]
    exact hnew d hd
  · constructor
    case top => simp
    case clients => simp [RoleTree.sprout]
    case size => simpa [RoleTree.sprout] using t.size_slots_le_occupy n
    case fresh => exact hfresh
    case live => exact fun id => (live_enlist _ _ _ _).trans (h.free.live_occupy n id)
    case new =>
      change ((t.occupy n).1.enlist p c).node c = n
      rw [hnode, if_neg (Ne.symm hpc), hself]
    case old =>
      intro id hid
      change ((t.occupy n).1.enlist p c).node id =
        { t.node id with
          children := if id = p then ((t.occupy n).1.enlist p c).listed c (t.node id).children
            else (t.node id).children }
      rw [hnode, hne hid]
      have hkindc : (((t.occupy n).1.enlist p c).node c).kind = ((t.occupy n).1.node c).kind := by
        rw [hnode]
      simp only [listed, hkindc]

/-! ## Dropped nodes -/

/-- The tree `t'` is `t` without the node `x`. -/
structure Drops (t : RoleTree α ω) (x : NodeId) (t' : RoleTree α ω) : Prop where
  top : t'.top = t.top
  clients : t'.clients = t.clients
  size : t'.slots.size = t.slots.size
  live : ∀ id, t'.Live id ↔ id ≠ x ∧ t.Live id
  node : ∀ {id}, id ≠ x →
    t'.node id = { t.node id with children := (t.node id).children.filter (· ≠ x) }

theorem Linked.drop (h : t.Linked []) (hx : t.Live x) (hroot : x ≠ t.top)
    (hchildren : (t.node x).children = []) :
    ((t.unlist x).vacate x).Linked [] ∧ Drops t x ((t.unlist x).vacate x) := by
  have hnode := h.node_unlist hx hroot List.not_mem_nil
  refine ⟨(h.unlist hx hroot List.not_mem_nil).vacate (by simp [hnode, hchildren]), ?_⟩
  constructor
  case top => simp
  case clients => simp
  case size => simp
  case live => simp
  case node =>
    intro id hid
    rw [node_vacate_ne _ hid, hnode]

/-! ## Nodes that turn into others -/

/-- In the tree `t'` the node `x` has another kind and other holdings, and its place among its
siblings goes with them. -/
structure Turns (t : RoleTree α ω) (x : NodeId) (kind : NodeKind) (ledger : Ledger α)
    (t' : RoleTree α ω) : Prop where
  top : t'.top = t.top
  clients : t'.clients = t.clients
  size : t'.slots.size = t.slots.size
  live : ∀ id, t'.Live id ↔ t.Live id
  self : t'.node x = { t.node x with kind := kind, ledger := ledger }
  other : ∀ {id}, id ≠ x → ∃ children, children.Perm (t.node id).children ∧
    t'.node id = { t.node id with children := children }

private theorem cons_filter_ne_perm {ids : List NodeId} (h : ids.Nodup) (hx : x ∈ ids) :
    (x :: ids.filter (· ≠ x)).Perm ids := by
  have herase : ids.filter (· ≠ x) = ids.erase x := by
    rw [h.erase_eq_filter]
    exact List.filter_congr fun id _ => by simp [bne, beq_eq_decide]
  rw [herase]
  exact (List.perm_cons_erase hx).symm

theorem Linked.turn (h : t.Linked []) (hx : t.Live x) (hroot : x ≠ t.top)
    (hchildren : (t.node x).children = []) (kind : NodeKind) (ledger : Ledger α)
    (hown : (t.node x).name = RolePath.ownLeaf → kind.isLeaf) {f : Node α ω → Node α ω}
    (hf : f (t.node x) = { t.node x with kind := kind, ledger := ledger }) :
    ((t.modify x f).relist x).Linked [] ∧ Turns t x kind ledger ((t.modify x f).relist x) := by
  obtain ⟨p, hparent, hmem⟩ := h.up hx hroot List.not_mem_nil
  have hxp : x ≠ p := h.child_ne_parent hmem
  have hparent' : ((t.modify x f).node x).parent = some p := by
    rw [t.node_modify_self x f hx, hf]
    exact hparent
  -- The node may as well be changed while it hangs nowhere.
  have hswap : (t.modify x f).relist x = ((t.unlist x).modify x f).enlist p x := by
    unfold RoleTree.relist RoleTree.unlist
    simp only [hparent', hparent]
    rw [modify_comm t hxp]
  have hself := h.node_unlist_self hx hroot List.not_mem_nil hchildren
  have hunlist := h.unlist hx hroot List.not_mem_nil
  have hfself : ((t.unlist x).modify x f).node x =
      { t.node x with kind := kind, ledger := ledger } := by
    rw [node_modify_self _ _ _ (by simpa using hx), hself, hf]
  have hfother {id : NodeId} (hid : id ≠ x) : ((t.unlist x).modify x f).node id =
      { t.node id with children := (t.node id).children.filter (· ≠ x) } := by
    rw [node_modify_ne _ _ _ hid, h.node_unlist hx hroot List.not_mem_nil]
  have hmodify : ((t.unlist x).modify x f).Linked [x] := by
    apply hunlist.modify
    · rw [hself, hchildren]
    · rw [hself, hf]
      exact hchildren
    · rw [hself, hf]
      exact h.named hx hroot
    · rw [hself, hf, top_unlist]
      exact fun hname => ⟨hown hname, (h.own hx hname).2⟩
  have hplive : ((t.unlist x).modify x f).Live p := by
    simpa using live_of_mem_children hmem
  obtain ⟨-, -, -, hpath⟩ := h.down hmem
  rw [hswap]
  refine ⟨hmodify.enlist hplive ?_ ?_ ?_ ?_, ?_⟩
  · rw [hfother (Ne.symm hxp)]
    exact h.kind_of_child hmem
  · rw [hfself]
    exact hparent
  · rw [hfself, hfother (Ne.symm hxp)]
    exact hpath
  · intro c hc
    rw [hfother (Ne.symm hxp)] at hc
    simp only [List.mem_filter, decide_eq_true_eq] at hc
    rw [hfself, hfother hc.2]
    exact fun hname => hc.2 (h.eq_of_name_eq hc.1 hmem hname)
  · have henlist := ((t.unlist x).modify x f).node_enlist hplive x
    constructor
    case top => simp
    case clients => simp
    case size => simp
    case live => simp
    case self => rw [henlist, if_neg hxp, hfself]
    case other =>
      intro id hid
      rw [henlist, hfother hid]
      refine ⟨_, ?_, rfl⟩
      split
      · rename_i hidp
        subst hidp
        refine (listed_perm _ _ _).trans ?_
        exact cons_filter_ne_perm (h.nodup_children id) hmem
      · rename_i hidp
        rw [h.filter_children_eq hmem hidp]

/-! ## Split leaves -/

@[simp]
theorem top_splitLeaf (t : RoleTree α ω) (leaf : NodeId) : (t.splitLeaf leaf).1.top = t.top := by
  unfold splitLeaf
  dsimp only
  split <;> simp

/-- The tree `t'` has the internal node `c` in the place of `leaf`, which is its only child. -/
structure Splits (t : RoleTree α ω) (leaf c : NodeId) (t' : RoleTree α ω) : Prop where
  top : t'.top = t.top
  clients : t'.clients = t.clients
  size : t.slots.size ≤ t'.slots.size
  fresh : ¬ t.Live c
  live : ∀ id, t'.Live id ↔ id = c ∨ t.Live id
  new : t'.node c =
    { bareNode (t.node leaf).name (t.node leaf).path .internal (t.node leaf).parent with
      children := [leaf] }
  moved : t'.node leaf =
    { t.node leaf with
      name := RolePath.ownLeaf, path := RolePath.join (t.node leaf).path RolePath.ownLeaf
      parent := some c, weight := none }
  other : ∀ {id}, id ≠ c → id ≠ leaf → ∃ children,
    t'.node id = { t.node id with children := children } ∧
    ∀ d, d ∈ children ↔
      d = c ∧ leaf ∈ (t.node id).children ∨ d ≠ leaf ∧ d ∈ (t.node id).children

/-- The node as the leaf for the client of the role `c`, which has the given path. -/
def ownLeafOf (c : NodeId) (path : String) (n : Node α ω) : Node α ω :=
  { n with
    name := RolePath.ownLeaf, path := RolePath.join path RolePath.ownLeaf
    parent := some c, weight := none }

theorem Linked.enlistOwn {leaf c : NodeId} (h : t.Linked [leaf]) (hleaf : (t.node leaf).kind.isLeaf)
    (hc : t.Live c) (hroot : c ≠ t.top) (hkind : (t.node c).kind = .internal)
    (hchildren : (t.node c).children = []) :
    ((t.modify leaf (ownLeafOf c (t.node c).path)).enlist c leaf).Linked [] ∧
      ∀ id, ((t.modify leaf (ownLeafOf c (t.node c).path)).enlist c leaf).node id =
        if id = c then { t.node c with children := [leaf] }
        else if id = leaf then ownLeafOf c (t.node c).path (t.node leaf) else t.node id := by
  have hlc : leaf ≠ c := ne_of_isLeaf hleaf hkind
  have hmodify : (t.modify leaf (ownLeafOf c (t.node c).path)).Linked [leaf] := by
    apply h.modify (h.leaf hleaf)
    · exact h.leaf hleaf
    · exact RolePath.isName_ownLeaf
    · exact fun _ => ⟨hleaf, by simpa [ownLeafOf] using hroot⟩
  have hself : (t.modify leaf (ownLeafOf c (t.node c).path)).node leaf =
      ownLeafOf c (t.node c).path (t.node leaf) :=
    node_modify_self _ _ _ (h.out_live List.mem_cons_self).1
  have hother {id : NodeId} (hid : id ≠ leaf) :
      (t.modify leaf (ownLeafOf c (t.node c).path)).node id = t.node id :=
    node_modify_ne _ _ _ hid
  have hrole := hother hlc.symm
  have hclive : (t.modify leaf (ownLeafOf c (t.node c).path)).Live c := by simpa using hc
  constructor
  · apply hmodify.enlist hclive
    · rw [hrole, hkind]
    · rw [hself]
      rfl
    · rw [hself, hrole]
      rfl
    · intro d hd
      rw [hrole, hchildren] at hd
      exact absurd hd List.not_mem_nil
  · intro id
    rw [node_enlist _ hclive]
    by_cases hidc : id = c
    · rw [if_pos hidc, if_pos hidc, hidc, hrole, hchildren]
      have hlisted : (t.modify leaf (ownLeafOf c (t.node c).path)).listed leaf [] = [leaf] := by
        unfold listed
        split <;> rfl
      rw [hlisted]
    · rw [if_neg hidc, if_neg hidc]
      by_cases hidl : id = leaf
      · rw [if_pos hidl, hidl, hself]
      · rw [if_neg hidl, hother hidl]

theorem Linked.splitLeaf (h : t.Linked []) {leaf : NodeId} (hleaf : t.Live leaf)
    (hroot : leaf ≠ t.top) (hkind : (t.node leaf).kind.isLeaf)
    (hname : (t.node leaf).name ≠ RolePath.ownLeaf) :
    (t.splitLeaf leaf).1.Linked [] ∧ Splits t leaf (t.splitLeaf leaf).2 (t.splitLeaf leaf).1 := by
  obtain ⟨p, hparent, hmem⟩ := h.up hleaf hroot List.not_mem_nil
  obtain ⟨-, -, -, hpath⟩ := h.down hmem
  have hpl : p ≠ leaf := Ne.symm (h.child_ne_parent hmem)
  -- The leaf hangs nowhere while the internal node takes its place.
  have h₁ := h.unlist hleaf hroot List.not_mem_nil
  have hnode₁ := h.node_unlist hleaf hroot List.not_mem_nil
  obtain ⟨h₂, s⟩ := h₁.sprout (p := p) (t.node leaf).name .internal
    (by simpa using live_of_mem_children hmem) (by simpa [hnode₁] using h.kind_of_child hmem)
    (h.named hleaf hroot) (fun he => absurd he hname) (by
      intro c hc he
      simp only [hnode₁, List.mem_filter, decide_eq_true_eq] at hc he
      exact hc.2 (h.eq_of_name_eq hc.1 hmem he))
  generalize hsprout : (t.unlist leaf).sprout (t.node leaf).name .internal p = sprouted at h₂ s
  obtain ⟨t₂, c⟩ := sprouted
  dsimp only at h₂ s
  have hfresh : ¬ t.Live c := by simpa using s.fresh
  have hlc : leaf ≠ c := fun he => hfresh (he ▸ hleaf)
  have hcroot : c ≠ t₂.top := by
    rw [s.top, top_unlist]
    exact fun he => hfresh (he ▸ h.root_live)
  have hcnode : t₂.node c =
      bareNode (t.node leaf).name (t.node leaf).path .internal (t.node leaf).parent := by
    rw [s.new, hpath, hparent, hnode₁]
  have hleaf₂ : t₂.node leaf = t.node leaf := by
    rw [s.old hlc, if_neg (Ne.symm hpl),
      h.node_unlist_self hleaf hroot List.not_mem_nil (h.leaf hkind)]
  have hsplit : t.splitLeaf leaf =
      ((t₂.modify leaf (ownLeafOf c (t₂.node c).path)).enlist c leaf, c) := by
    unfold RoleTree.splitLeaf
    simp only [hparent, hsprout]
    rfl
  obtain ⟨h₃, hnode₃⟩ := h₂.enlistOwn (by rwa [hleaf₂]) ((s.live c).mpr (.inl rfl)) hcroot
    (by rw [hcnode]; rfl) (by rw [hcnode]; rfl)
  rw [hsplit]
  refine ⟨h₃, ?_⟩
  constructor
  case top => simpa using s.top
  case clients => simpa using s.clients
  case size => simpa using s.size
  case fresh => exact hfresh
  case live =>
    intro id
    simpa using s.live id
  case new => rw [hnode₃, if_pos rfl, hcnode]
  case moved =>
    rw [hnode₃, if_neg hlc, if_pos rfl, hleaf₂, hcnode]
    rfl
  case other =>
    intro id hidc hidl
    rw [hnode₃, if_neg hidc, if_neg hidl, s.old hidc, hnode₁]
    refine ⟨_, rfl, fun d => ?_⟩
    dsimp only
    split
    · rename_i hidp
      subst hidp
      simp [hmem, and_comm]
    · rename_i hidp
      have hnot : leaf ∉ (t.node id).children := fun hl => hidp (h.parent_eq hl hmem)
      simp [hnot, and_comm]

/-! ## Leaves folded back -/

theorem Linked.setClients (h : t.Linked out) (clients : Table NodeId) :
    { t with clients := clients }.Linked out :=
  ⟨⟨h.free.nodup, h.free.mem_iff⟩, h.out_nodup, h.out_live, h.root_live, h.root_name, h.root_path,
    h.root_kind, h.root_parent, h.up, h.down, h.apart, h.leaf, h.named, h.own, h.ordered⟩

@[simp]
theorem top_foldBack (t : RoleTree α ω) (x own : NodeId) : (t.foldBack x own).top = t.top := by
  simp [foldBack]

/-- In the tree `t'` the node `x` is a leaf in the place of its only child `own`. -/
structure Folds (t : RoleTree α ω) (x own : NodeId) (t' : RoleTree α ω) : Prop where
  top : t'.top = t.top
  clients : t'.clients = t.clients.insert (t.node x).path x
  size : t'.slots.size = t.slots.size
  live : ∀ id, t'.Live id ↔ id ≠ own ∧ t.Live id
  self : t'.node x =
    { t.node x with kind := (t.node own).kind, ledger := (t.node own).ledger, children := [] }
  other : ∀ {id}, id ≠ x → id ≠ own → ∃ children, children.Perm (t.node id).children ∧
    t'.node id = { t.node id with children := children }

theorem Linked.foldBack (h : t.Linked []) {own : NodeId} (hroot : x ≠ t.top)
    (hchildren : (t.node x).children = [own]) (hown : (t.node own).name = RolePath.ownLeaf) :
    (t.foldBack x own).Linked [] ∧ Folds t x own (t.foldBack x own) := by
  have hmem : own ∈ (t.node x).children := by simp [hchildren]
  have hownl := (h.down hmem).1
  have hownleaf := (h.own hownl hown).1
  have hxown : x ≠ own := Ne.symm (h.child_ne_parent hmem)
  obtain ⟨h₁, d⟩ := h.drop hownl (h.child_ne_root hmem) (h.leaf hownleaf)
  have hx₁ : ((t.unlist own).vacate own).node x = { t.node x with children := [] } := by
    rw [d.node hxown, hchildren]
    simp
  obtain ⟨h₂, s⟩ := h₁.turn ((d.live x).mpr ⟨hxown, live_of_mem_children hmem⟩)
    (by rwa [d.top]) (by rw [hx₁]) (t.node own).kind (t.node own).ledger (fun _ => hownleaf)
    (f := fun m => { m with kind := (t.node own).kind, ledger := (t.node own).ledger }) rfl
  unfold RoleTree.foldBack
  dsimp only
  generalize RoleTree.relist _ x = t₂ at h₂ s ⊢
  refine ⟨h₂.setClients _, ?_⟩
  constructor
  case top => exact s.top.trans d.top
  case clients => exact congrArg (Table.insert · _ x) (s.clients.trans d.clients)
  case size => exact s.size.trans d.size
  case live => exact fun id => (s.live id).trans (d.live id)
  case self => exact s.self.trans (by rw [hx₁])
  case other =>
    intro id hidx hidown
    obtain ⟨children, hperm, hid⟩ := s.other hidx
    refine ⟨children, ?_, ?_⟩
    · rw [d.node hidown] at hperm
      rwa [h.filter_children_eq hmem hidx] at hperm
    · rw [d.node hidown] at hid
      exact hid

end RoleLottery.RoleTree
