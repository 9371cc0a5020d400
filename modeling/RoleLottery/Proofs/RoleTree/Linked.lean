import Mathlib.Data.List.Nodup
import RoleLottery.Proofs.RolePath
import RoleLottery.Proofs.RoleTree.Slots

/-!
# Links of a role tree

Parents and children refer to each other, siblings differ in name, paths are the joined names, and
inactive leaves stand last. The operations on links take nodes out and put them back; in between,
the nodes that hang nowhere are named.
-/

namespace RoleLottery.RoleTree

variable {α ω : Type}

/-- The links are in order, except that the nodes in `out` are nobody's children. -/
structure Linked (out : List NodeId) (t : RoleTree α ω) : Prop where
  free : t.FreeListed
  out_nodup : out.Nodup
  out_live : ∀ {id}, id ∈ out → t.Live id ∧ id ≠ t.top
  root_live : t.Live t.top
  root_name : (t.node t.top).name = ""
  root_path : (t.node t.top).path = ""
  root_kind : (t.node t.top).kind = .internal
  root_parent : (t.node t.top).parent = none
  up : ∀ {id}, t.Live id → id ≠ t.top → id ∉ out →
    ∃ p, (t.node id).parent = some p ∧ id ∈ (t.node p).children
  down : ∀ {p c}, c ∈ (t.node p).children → t.Live c ∧ c ∉ out ∧ (t.node c).parent = some p ∧
    (t.node c).path = RolePath.join (t.node p).path (t.node c).name
  apart : ∀ p, ((t.node p).children.map fun c => (t.node c).name).Nodup
  leaf : ∀ {id}, (t.node id).kind.isLeaf → (t.node id).children = []
  named : ∀ {id}, t.Live id → id ≠ t.top → RolePath.IsName (t.node id).name
  own : ∀ {id}, t.Live id → (t.node id).name = RolePath.ownLeaf →
    (t.node id).kind.isLeaf ∧ (t.node id).parent ≠ some t.top
  ordered : ∀ p, (t.node p).children.Pairwise fun c d =>
    (t.node c).kind = .inactive → (t.node d).kind = .inactive

namespace Linked

variable {t : RoleTree α ω} {out : List NodeId} {id p c d : NodeId}

theorem child_ne_root (h : t.Linked out) (hc : c ∈ (t.node p).children) : c ≠ t.top := by
  intro he
  subst he
  have hparent := (h.down hc).2.2.1
  rw [h.root_parent] at hparent
  exact absurd hparent (by simp)

theorem ne_root_of_leaf (h : t.Linked out) (hleaf : (t.node id).kind.isLeaf) : id ≠ t.top :=
  ne_of_isLeaf hleaf h.root_kind

theorem length_path_lt (h : t.Linked out) (hc : c ∈ (t.node p).children) :
    (t.node p).path.length < (t.node c).path.length := by
  obtain ⟨hlive, -, -, hpath⟩ := h.down hc
  rw [hpath]
  exact RolePath.length_lt_join _ (h.named hlive (h.child_ne_root hc))

theorem child_ne_parent (h : t.Linked out) (hc : c ∈ (t.node p).children) : c ≠ p := by
  intro he
  subst he
  exact Nat.lt_irrefl _ (h.length_path_lt hc)

theorem nodup_children (h : t.Linked out) (p : NodeId) : (t.node p).children.Nodup :=
  List.Nodup.of_map _ (h.apart p)

theorem eq_of_name_eq (h : t.Linked out) (hc : c ∈ (t.node p).children)
    (hd : d ∈ (t.node p).children) (hname : (t.node c).name = (t.node d).name) : c = d :=
  List.inj_on_of_nodup_map (h.apart p) hc hd hname

theorem parent_eq (h : t.Linked out) {q : NodeId} (hc : c ∈ (t.node p).children)
    (hq : c ∈ (t.node q).children) : p = q := by
  have hp := (h.down hc).2.2.1
  rw [(h.down hq).2.2.1] at hp
  exact (Option.some.inj hp).symm

theorem kind_of_child (h : t.Linked out) (hc : c ∈ (t.node p).children) :
    (t.node p).kind = .internal := by
  by_contra hkind
  exact ne_of_childless (h.leaf (isLeaf_iff.mpr hkind)) hc rfl

theorem name_ne_of_child (h : t.Linked out) (hc : c ∈ (t.node p).children) :
    (t.node p).name ≠ RolePath.ownLeaf := fun hname =>
  ne_of_isLeaf (h.own (live_of_mem_children hc) hname).1 (h.kind_of_child hc) rfl

theorem path_ne_empty (h : t.Linked out) (hc : c ∈ (t.node p).children) :
    (t.node c).path ≠ "" := by
  intro he
  have hlt := h.length_path_lt hc
  simp [he] at hlt

end Linked

/-! ## Taking a node out of the children -/

/-- Only the parent of a node has to be changed to take the node out. -/
theorem Linked.filter_children_eq {t : RoleTree α ω} {out : List NodeId} (h : t.Linked out)
    {x p id : NodeId} (hx : x ∈ (t.node p).children) (hid : id ≠ p) :
    (t.node id).children.filter (· ≠ x) = (t.node id).children := by
  have hnot : x ∉ (t.node id).children := fun hx' => hid (h.parent_eq hx' hx)
  apply List.filter_eq_self.mpr
  intro c hc
  simpa using ne_of_mem_of_not_mem hc hnot

theorem Linked.node_unlist {t : RoleTree α ω} {out : List NodeId} (h : t.Linked out) {x : NodeId}
    (hx : t.Live x) (hroot : x ≠ t.top) (hout : x ∉ out) (id : NodeId) :
    (t.unlist x).node id =
      { t.node id with children := (t.node id).children.filter (· ≠ x) } := by
  obtain ⟨p, hparent, hmem⟩ := h.up hx hroot hout
  unfold unlist
  rw [hparent]
  dsimp only
  by_cases hid : id = p
  · subst hid
    rw [node_modify_self _ _ _ (live_of_mem_children hmem)]
  · rw [node_modify_ne _ _ _ hid]
    rw [h.filter_children_eq hmem hid]

theorem Linked.node_unlist_self {t : RoleTree α ω} {out : List NodeId} (h : t.Linked out)
    {x : NodeId} (hx : t.Live x) (hroot : x ≠ t.top) (hout : x ∉ out)
    (hchildren : (t.node x).children = []) : (t.unlist x).node x = t.node x := by
  rw [h.node_unlist hx hroot hout, hchildren]
  exact congrArg (fun children => { t.node x with children := children }) hchildren.symm

@[simp]
theorem live_unlist (t : RoleTree α ω) (x id : NodeId) : (t.unlist x).Live id ↔ t.Live id := by
  unfold unlist
  split <;> simp

@[simp]
theorem free_unlist (t : RoleTree α ω) (x : NodeId) : (t.unlist x).free = t.free := by
  unfold unlist
  split <;> simp

@[simp]
theorem top_unlist (t : RoleTree α ω) (x : NodeId) : (t.unlist x).top = t.top := by
  unfold unlist
  split <;> simp

@[simp]
theorem clients_unlist (t : RoleTree α ω) (x : NodeId) : (t.unlist x).clients = t.clients := by
  unfold unlist
  split <;> simp

@[simp]
theorem size_slots_unlist (t : RoleTree α ω) (x : NodeId) :
    (t.unlist x).slots.size = t.slots.size := by
  unfold unlist
  split <;> simp

theorem Linked.unlist {t : RoleTree α ω} {out : List NodeId} (h : t.Linked out) {x : NodeId}
    (hx : t.Live x) (hroot : x ≠ t.top) (hout : x ∉ out) : (t.unlist x).Linked (x :: out) := by
  have hnode := h.node_unlist hx hroot hout
  constructor
  case free => exact h.free.congr (by simp) (by simp) (by simp)
  case out_nodup => exact List.nodup_cons.mpr ⟨hout, h.out_nodup⟩
  case out_live =>
    intro id hid
    rcases List.mem_cons.mp hid with rfl | hid
    · simpa using And.intro hx hroot
    · simpa using h.out_live hid
  case root_live => simpa using h.root_live
  case root_name => simpa [hnode] using h.root_name
  case root_path => simpa [hnode] using h.root_path
  case root_kind => simpa [hnode] using h.root_kind
  case root_parent => simpa [hnode] using h.root_parent
  case up =>
    intro id hid hne hnotin
    simp only [List.mem_cons, not_or] at hnotin
    rw [top_unlist] at hne
    obtain ⟨p, hparent, hmem⟩ := h.up (by simpa using hid) hne hnotin.2
    exact ⟨p, by simpa [hnode] using hparent, by simp [hnode, hmem, hnotin.1]⟩
  case down =>
    intro p c hc
    simp only [hnode, List.mem_filter, decide_eq_true_eq] at hc
    obtain ⟨hlive, hnotin, hparent, hpath⟩ := h.down hc.1
    simp [hnode, hlive, hnotin, hparent, hpath, hc.2]
  case apart =>
    intro p
    simp only [hnode]
    exact (h.apart p).sublist (List.filter_sublist.map _)
  case leaf =>
    intro id hleaf
    simp only [hnode] at hleaf ⊢
    simp [h.leaf hleaf]
  case named =>
    intro id hid hne
    rw [top_unlist] at hne
    simpa [hnode] using h.named (by simpa using hid) hne
  case own =>
    intro id hid hname
    simp only [hnode, top_unlist] at hname ⊢
    exact h.own (by simpa using hid) hname
  case ordered =>
    intro p
    simp only [hnode]
    exact (h.ordered p).sublist List.filter_sublist

/-! ## Listing a node among the children -/

def listed (t : RoleTree α ω) (x : NodeId) (children : List NodeId) : List NodeId :=
  if (t.node x).kind = .inactive then children ++ [x] else x :: children

theorem listed_perm (t : RoleTree α ω) (x : NodeId) (children : List NodeId) :
    (t.listed x children).Perm (x :: children) := by
  unfold listed
  split
  · exact List.perm_append_singleton x children
  · exact List.Perm.refl _

@[simp]
theorem mem_listed {t : RoleTree α ω} {x c : NodeId} {children : List NodeId} :
    c ∈ t.listed x children ↔ c = x ∨ c ∈ children := by
  rw [(t.listed_perm x children).mem_iff, List.mem_cons]

theorem node_enlist (t : RoleTree α ω) {p : NodeId} (hp : t.Live p) (x id : NodeId) :
    (t.enlist p x).node id =
      { t.node id with
        children := if id = p then t.listed x (t.node id).children else (t.node id).children } := by
  unfold enlist listed
  split
  · rename_i hid
    subst hid
    rw [node_modify_self _ _ _ hp]
  · rename_i hid
    rw [node_modify_ne _ _ _ hid]

@[simp]
theorem live_enlist (t : RoleTree α ω) (p x id : NodeId) :
    (t.enlist p x).Live id ↔ t.Live id := by
  simp [enlist]

@[simp]
theorem free_enlist (t : RoleTree α ω) (p x : NodeId) : (t.enlist p x).free = t.free := by
  simp [enlist]

@[simp]
theorem top_enlist (t : RoleTree α ω) (p x : NodeId) : (t.enlist p x).top = t.top := by
  simp [enlist]

@[simp]
theorem top_relist (t : RoleTree α ω) (x : NodeId) : (t.relist x).top = t.top := by
  unfold relist
  split <;> simp

@[simp]
theorem clients_enlist (t : RoleTree α ω) (p x : NodeId) :
    (t.enlist p x).clients = t.clients := by
  simp [enlist]

@[simp]
theorem size_slots_enlist (t : RoleTree α ω) (p x : NodeId) :
    (t.enlist p x).slots.size = t.slots.size := by
  simp [enlist]

theorem Linked.enlist {t : RoleTree α ω} {out : List NodeId} {x p : NodeId}
    (h : t.Linked (x :: out)) (hp : t.Live p) (hkind : (t.node p).kind = .internal)
    (hparent : (t.node x).parent = some p)
    (hpath : (t.node x).path = RolePath.join (t.node p).path (t.node x).name)
    (hname : ∀ c ∈ (t.node p).children, (t.node c).name ≠ (t.node x).name) :
    (t.enlist p x).Linked out := by
  have hnode := t.node_enlist hp x
  obtain ⟨hout, hnodup⟩ := List.nodup_cons.mp h.out_nodup
  obtain ⟨hx, hroot⟩ := h.out_live List.mem_cons_self
  constructor
  case free => exact h.free.congr (by simp) (by simp) (by simp)
  case out_nodup => exact hnodup
  case out_live =>
    intro id hid
    simpa using h.out_live (List.mem_cons_of_mem x hid)
  case root_live => simpa using h.root_live
  case root_name => simpa [hnode] using h.root_name
  case root_path => simpa [hnode] using h.root_path
  case root_kind => simpa [hnode] using h.root_kind
  case root_parent => simpa [hnode] using h.root_parent
  case up =>
    intro id hid hne hnotin
    rw [top_enlist] at hne
    by_cases hidx : id = x
    · subst hidx
      exact ⟨p, by simpa [hnode] using hparent, by simp [hnode]⟩
    · obtain ⟨q, hq, hmem⟩ := h.up (by simpa using hid) hne (by simp [hidx, hnotin])
      refine ⟨q, by simpa [hnode] using hq, ?_⟩
      simp only [hnode]
      split <;> simp [hmem]
  case down =>
    intro q c hc
    simp only [hnode, live_enlist] at hc ⊢
    have hold (hmem : c ∈ (t.node q).children) := h.down hmem
    split at hc
    · rename_i hq
      subst hq
      rcases mem_listed.mp hc with rfl | hc
      · exact ⟨hx, hout, hparent, hpath⟩
      · obtain ⟨hlive, hnotin, hrest⟩ := hold hc
        exact ⟨hlive, fun hmem => hnotin (List.mem_cons_of_mem x hmem), hrest⟩
    · obtain ⟨hlive, hnotin, hrest⟩ := hold hc
      exact ⟨hlive, fun hmem => hnotin (List.mem_cons_of_mem x hmem), hrest⟩
  case apart =>
    intro q
    simp only [hnode]
    split
    · rename_i hq
      subst hq
      refine (((t.listed_perm x _).map _).nodup_iff).mpr ?_
      rw [List.map_cons, List.nodup_cons]
      refine ⟨fun hmem => ?_, h.apart q⟩
      obtain ⟨c, hc, he⟩ := List.mem_map.mp hmem
      exact hname c hc he
    · exact h.apart q
  case leaf =>
    intro id hleaf
    simp only [hnode] at hleaf ⊢
    split
    · rename_i hid
      subst hid
      simp [hkind, NodeKind.isLeaf] at hleaf
    · exact h.leaf hleaf
  case named =>
    intro id hid hne
    rw [top_enlist] at hne
    simpa [hnode] using h.named (by simpa using hid) hne
  case own =>
    intro id hid hname
    simp only [hnode, top_enlist] at hname ⊢
    exact h.own (by simpa using hid) hname
  case ordered =>
    intro q
    simp only [hnode]
    split
    · unfold listed
      split
      · rename_i hinactive
        refine List.pairwise_append.mpr ⟨h.ordered q, List.pairwise_singleton _ _, ?_⟩
        intro c _ d hd _
        rw [List.mem_singleton.mp hd, hinactive]
      · rename_i hactive
        exact List.pairwise_cons.mpr ⟨fun c _ hinactive => absurd hinactive hactive, h.ordered q⟩
    · exact h.ordered q

/-! ## Nodes that hang nowhere -/

/-- A node without parent and children can be made, changed and dropped: the links of the others
do not show it. -/
private theorem Linked.change {t t' : RoleTree α ω} {out out' : List NodeId} {x : NodeId}
    (h : t.Linked out) (htop : t'.top = t.top) (hroot : x ≠ t.top)
    (hparents : ∀ p, x ∉ (t.node p).children)
    (hchildren : (t.node x).children = []) (hfree : t'.FreeListed)
    (hlive : ∀ {id}, id ≠ x → (t'.Live id ↔ t.Live id))
    (hnode : ∀ {id}, id ≠ x → t'.node id = t.node id)
    (hnodup : out'.Nodup) (hout : ∀ {id}, id ≠ x → (id ∈ out' ↔ id ∈ out))
    (houtx : x ∈ out' ↔ t'.Live x) (hchildren' : (t'.node x).children = [])
    (hname : t'.Live x → RolePath.IsName (t'.node x).name)
    (hown : t'.Live x → (t'.node x).name = RolePath.ownLeaf →
      (t'.node x).kind.isLeaf ∧ (t'.node x).parent ≠ some t.top) :
    t'.Linked out' := by
  have hchild {p c : NodeId} (hc : c ∈ (t'.node p).children) :
      p ≠ x ∧ c ≠ x ∧ c ∈ (t.node p).children := by
    have hp := ne_of_childless hchildren' hc
    rw [hnode hp] at hc
    refine ⟨hp, ?_, hc⟩
    intro hcx
    rw [hcx] at hc
    exact hparents p hc
  constructor
  case free => exact hfree
  case out_nodup => exact hnodup
  case out_live =>
    intro id hid
    by_cases hidx : id = x
    · subst hidx
      exact ⟨houtx.mp hid, htop ▸ hroot⟩
    · rw [hlive hidx, htop]
      exact h.out_live ((hout hidx).mp hid)
  case root_live => simpa only [htop, hlive (Ne.symm hroot)] using h.root_live
  case root_name => simpa only [htop, hnode (Ne.symm hroot)] using h.root_name
  case root_path => simpa only [htop, hnode (Ne.symm hroot)] using h.root_path
  case root_kind => simpa only [htop, hnode (Ne.symm hroot)] using h.root_kind
  case root_parent => simpa only [htop, hnode (Ne.symm hroot)] using h.root_parent
  case up =>
    intro id hid hne hnotin
    have hidx : id ≠ x := by
      intro he
      subst he
      exact hnotin (houtx.mpr hid)
    rw [htop] at hne
    obtain ⟨p, hparent, hmem⟩ := h.up ((hlive hidx).mp hid) hne (mt (hout hidx).mpr hnotin)
    have hp := ne_of_childless hchildren hmem
    exact ⟨p, by rw [hnode hidx, hparent], by rwa [hnode hp]⟩
  case down =>
    intro p c hc
    obtain ⟨hp, hcx, hmem⟩ := hchild hc
    obtain ⟨hcl, hnotin, hrest⟩ := h.down hmem
    rw [hnode hp, hnode hcx, hlive hcx, hout hcx]
    exact ⟨hcl, hnotin, hrest⟩
  case apart =>
    intro p
    rw [List.map_congr_left fun c hc => by rw [hnode (hchild hc).2.1]]
    by_cases hp : p = x
    · rw [hp, hchildren']
      exact List.nodup_nil
    · rw [hnode hp]
      exact h.apart p
  case leaf =>
    intro id hleaf
    by_cases hid : id = x
    · rw [hid, hchildren']
    · rw [hnode hid] at hleaf ⊢
      exact h.leaf hleaf
  case named =>
    intro id hid hne
    by_cases hidx : id = x
    · subst hidx
      exact hname hid
    · rw [htop] at hne
      rw [hnode hidx]
      exact h.named ((hlive hidx).mp hid) hne
  case own =>
    intro id hid hidname
    rw [htop]
    by_cases hidx : id = x
    · subst hidx
      exact hown hid hidname
    · rw [hnode hidx] at hidname ⊢
      exact h.own ((hlive hidx).mp hid) hidname
  case ordered =>
    intro p
    refine List.Pairwise.imp_of_mem (R := fun c d =>
      (t.node c).kind = .inactive → (t.node d).kind = .inactive) ?_ ?_
    · intro c d hc hd himp
      rwa [hnode (hchild hc).2.1, hnode (hchild hd).2.1]
    · by_cases hp : p = x
      · rw [hp, hchildren']
        exact List.Pairwise.nil
      · rw [hnode hp]
        exact h.ordered p

theorem Linked.not_mem_children_of_out {t : RoleTree α ω} {out : List NodeId} {x : NodeId}
    (h : t.Linked out) (hx : x ∈ out) (p : NodeId) : x ∉ (t.node p).children :=
  fun hmem => (h.down hmem).2.1 hx

theorem Linked.vacate {t : RoleTree α ω} {out : List NodeId} {x : NodeId}
    (h : t.Linked (x :: out)) (hchildren : (t.node x).children = []) :
    (t.vacate x).Linked out := by
  obtain ⟨hout, hnodup⟩ := List.nodup_cons.mp h.out_nodup
  obtain ⟨hx, hroot⟩ := h.out_live List.mem_cons_self
  have hgone : ¬ (t.vacate x).Live x := by simp
  apply h.change (t.top_vacate x) hroot (h.not_mem_children_of_out List.mem_cons_self) hchildren
    (h.free.vacate hx)
  · intro id hid
    simp [hid]
  · exact t.node_vacate_ne
  · exact hnodup
  · intro id hid
    simp [hid]
  · exact iff_of_false hout hgone
  · rw [node_of_not_live hgone]
    rfl
  · exact fun hlive => absurd hlive hgone
  · exact fun hlive => absurd hlive hgone

theorem Linked.occupy {t : RoleTree α ω} {out : List NodeId} (h : t.Linked out) {n : Node α ω}
    (hchildren : n.children = []) (hname : RolePath.IsName n.name)
    (hown : n.name = RolePath.ownLeaf → n.kind.isLeaf ∧ n.parent ≠ some t.top) :
    (t.occupy n).1.Linked ((t.occupy n).2 :: out) := by
  have hfresh := h.free.not_live_occupy n
  have hself := h.free.node_occupy_self n
  have hout : (t.occupy n).2 ∉ out := fun hmem => hfresh (h.out_live hmem).1
  have hlive := h.free.live_occupy n
  apply h.change (x := (t.occupy n).2) (t.top_occupy n)
  · intro he
    exact hfresh (he ▸ h.root_live)
  · exact fun p hmem => hfresh (h.down hmem).1
  · rw [node_of_not_live hfresh]
    rfl
  · exact h.free.occupy n
  · intro id hid
    simp [hlive, hid]
  · exact h.free.node_occupy_ne n
  · exact List.nodup_cons.mpr ⟨hout, h.out_nodup⟩
  · intro id hid
    simp [hid]
  · simp [hlive]
  · rw [hself, hchildren]
  · intro _
    rwa [hself]
  · intro _
    rwa [hself]

theorem Linked.modify {t : RoleTree α ω} {out : List NodeId} {x : NodeId}
    (h : t.Linked (x :: out)) {f : Node α ω → Node α ω} (hchildren : (t.node x).children = [])
    (hchildren' : (f (t.node x)).children = []) (hname : RolePath.IsName (f (t.node x)).name)
    (hown : (f (t.node x)).name = RolePath.ownLeaf →
      (f (t.node x)).kind.isLeaf ∧ (f (t.node x)).parent ≠ some t.top) :
    (t.modify x f).Linked (x :: out) := by
  obtain ⟨hx, hroot⟩ := h.out_live List.mem_cons_self
  have hself := t.node_modify_self x f hx
  apply h.change (t.top_modify x f) hroot (h.not_mem_children_of_out List.mem_cons_self) hchildren
  · exact h.free.congr (by simp) (by simp) (by simp)
  · simp
  · exact t.node_modify_ne x f
  · exact h.out_nodup
  · simp
  · simpa using hx
  · rw [hself, hchildren']
  · intro _
    rwa [hself]
  · intro _
    rwa [hself]

end RoleLottery.RoleTree
