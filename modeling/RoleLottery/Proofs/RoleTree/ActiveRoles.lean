import RoleLottery.Proofs.RoleTree.Odds
import RoleLottery.Proofs.RoleTree.Shape

/-!
# Active roles

A node leads to an active leaf when an active client has its path or extends it. So the names of the
children that lead to active leaves are known from the active clients alone.
-/

namespace RoleLottery.RoleTree

variable {α ω : Type} {t : RoleTree α ω} {x y z p c : NodeId} {ids : List NodeId}
  {client role name : String}

def IsActiveClient (t : RoleTree α ω) (client : String) : Prop :=
  ∃ leaf, t.client? client = some leaf ∧ (t.node leaf).kind = .active

/-- The path is an active client or a proper prefix of one. -/
def IsActiveRole (t : RoleTree α ω) (path : String) : Prop :=
  ∃ client, t.IsActiveClient client ∧ (client = path ∨ RolePath.Extends client path)

/-- The roles above a node are the prefixes of its path. -/
theorem Linked.mem_lineage_iff (h : t.Linked []) (hids : t.Lineage z ids) (hx : t.Live x)
    (hroot : x ≠ t.top) :
    x ∈ ids ↔ (t.node z).path = (t.node x).path ∨
      RolePath.Extends (t.node z).path (t.node x).path := by
  induction hids with
  | root =>
    have hne : (t.node t.top).path ≠ (t.node x).path :=
      fun hpath => hroot (h.path_injective h.root_live hx hpath).symm
    rw [h.root_path] at hne ⊢
    simp [hroot, hne, RolePath.not_extends_empty]
  | @child p c ids hp hmem ih =>
    obtain ⟨hc, -, -, hpath⟩ := h.down hmem
    have hself : x = c ↔ (t.node c).path = (t.node x).path :=
      ⟨fun he => he ▸ rfl, fun he => (h.path_injective hc hx he).symm⟩
    have hempty : (t.node p).path = "" →
        ¬ ((t.node p).path = (t.node x).path ∨
          RolePath.Extends (t.node p).path (t.node x).path) := by
      intro he hor
      rw [← ih] at hor
      have hproot : p = t.top :=
        h.path_injective (live_of_mem_children hmem) h.root_live (he.trans h.root_path.symm)
      subst hproot
      rw [h.lineage_unique hp .root, List.mem_singleton] at hor
      exact hroot hor
    have habove : RolePath.Extends (t.node c).path (t.node x).path ↔
        (t.node p).path = (t.node x).path ∨
          RolePath.Extends (t.node p).path (t.node x).path := by
      rw [hpath, RolePath.extends_join (h.named hc (h.child_ne_root hmem))]
      exact and_iff_right_of_imp fun hor he => hempty he hor
    rw [List.mem_cons, hself, ih, habove]

/-- The node with the path of a client, which is its leaf or the role above it. -/
theorem Sound.exists_home (h : t.Sound) (hclient : t.client? client = some y) :
    ∃ z ids, t.Lineage z ids ∧ z ≠ t.top ∧ (t.node z).name ≠ RolePath.ownLeaf ∧
      (t.node z).path = client ∧
      ∀ ids', t.Lineage y ids' →
        ∀ x, (t.node x).name ≠ RolePath.ownLeaf → (x ∈ ids' ↔ x ∈ ids) := by
  obtain ⟨hlive, hleaf, ⟨hname, hpath⟩ | ⟨hname, p, hp, hmem, hpath, -⟩⟩ := h.leaf_cases hclient
  · obtain ⟨ids, hids⟩ := h.linked.exists_lineage hlive
    refine ⟨y, ids, hids, h.linked.ne_root_of_leaf hleaf, hname, hpath, fun ids' hids' x _ => ?_⟩
    rw [h.linked.lineage_unique hids' hids]
  · have hplive := live_of_mem_children hmem
    obtain ⟨ids, hids⟩ := h.linked.exists_lineage hplive
    refine ⟨p, ids, hids, hp, h.linked.name_ne_of_child hmem, hpath, fun ids' hids' x hx => ?_⟩
    rw [h.linked.lineage_unique hids' (.child hids hmem), List.mem_cons]
    have hne : x ≠ y := by
      rintro rfl
      exact hx hname
    simp [hne]

theorem Sound.mem_lineage_iff_client (h : t.Sound) (hclient : t.client? client = some y)
    (hids : t.Lineage y ids) (hx : t.Live x) (hroot : x ≠ t.top)
    (hname : (t.node x).name ≠ RolePath.ownLeaf) :
    x ∈ ids ↔ client = (t.node x).path ∨ RolePath.Extends client (t.node x).path := by
  obtain ⟨z, ids', hids', -, -, hpath, hsame⟩ := h.exists_home hclient
  rw [hsame ids hids x hname, h.linked.mem_lineage_iff hids' hx hroot, hpath]

theorem Sound.leadsToActive_iff_role (h : t.Sound) (hx : t.Live x) (hroot : x ≠ t.top)
    (hname : (t.node x).name ≠ RolePath.ownLeaf) :
    t.leadsToActive x = true ↔ t.IsActiveRole (t.node x).path := by
  rw [h.linked.leadsToActive_iff]
  constructor
  · rintro ⟨y, ids, hkind, hids, hmem⟩
    have hclient := h.client?_of_active hkind
    exact ⟨t.clientOf y, ⟨y, hclient, hkind⟩,
      (h.mem_lineage_iff_client hclient hids hx hroot hname).mp hmem⟩
  · rintro ⟨client, ⟨y, hclient, hkind⟩, hextends⟩
    obtain ⟨ids, hids⟩ := h.linked.exists_lineage (live_of_active hkind)
    exact ⟨y, ids, hkind, hids,
      (h.mem_lineage_iff_client hclient hids hx hroot hname).mpr hextends⟩

theorem Sound.exists_node_of_role (h : t.Sound) (hrole : t.IsActiveRole role) :
    ∃ x, t.Live x ∧ x ≠ t.top ∧ (t.node x).name ≠ RolePath.ownLeaf ∧ (t.node x).path = role := by
  obtain ⟨client, ⟨y, hclient, -⟩, hextends⟩ := hrole
  obtain ⟨z, ids, hids, hroot, hname, hpath, -⟩ := h.exists_home hclient
  have hz := h.linked.rooted.live ⟨_, hids⟩
  rcases hextends with rfl | hextends
  · exact ⟨z, hz, hroot, hname, hpath⟩
  · rw [← hpath] at hextends
    obtain ⟨x, hx, hxroot, hkind, hxpath⟩ := h.linked.exists_role hz hextends
    exact ⟨x, hx, hxroot, fun he => ne_of_isLeaf (h.linked.own hx he).1 hkind rfl, hxpath⟩

theorem Sound.exists_child_of_role (h : t.Sound) (hvalid : RolePath.IsName name)
    (hrole : t.IsActiveRole (RolePath.join role name)) :
    ∃ p, ∃ c ∈ (t.node p).children, (t.node p).path = role ∧ (t.node c).name = name ∧
      t.leadsToActive c = true := by
  obtain ⟨c, hc, hroot, hname, hpath⟩ := h.exists_node_of_role hrole
  obtain ⟨p, -, hmem⟩ := h.linked.up hc hroot List.not_mem_nil
  have hleads := (h.leadsToActive_iff_role hc hroot hname).mpr (hpath.symm ▸ hrole)
  rw [(h.linked.down hmem).2.2.2] at hpath
  obtain ⟨hp, hn⟩ := RolePath.join_injective (h.linked.named hc hroot) hvalid hpath
  exact ⟨p, c, hmem, hp, hn, hleads⟩

theorem Sound.leadsToActive_own (h : t.Sound) (hc : c ∈ (t.node p).children)
    (hname : (t.node c).name = RolePath.ownLeaf) :
    t.leadsToActive c = true ↔ t.IsActiveClient (t.node p).path := by
  obtain ⟨hlive, -, hparent, -⟩ := h.linked.down hc
  have hleaf := (h.linked.own hlive hname).1
  have hclient : t.client? (t.node p).path = some c := by
    rw [← clientOf_of_parent hparent hname]
    exact h.client?_clientOf hlive hleaf
  constructor
  · intro hleads
    have hinactive := h.linked.kind_ne_inactive hleads
    refine ⟨c, hclient, ?_⟩
    cases hkind : (t.node c).kind with
    | active => rfl
    | inactive => exact absurd hkind hinactive
    | internal => exact absurd hkind (isLeaf_iff.mp hleaf)
  · rintro ⟨leaf, hleaf, hkind⟩
    rw [hclient] at hleaf
    obtain rfl := Option.some.inj hleaf
    exact h.linked.leadsToActive_of_active hkind

/-! ## Names of live children -/

def liveNames (t : RoleTree α ω) (p : NodeId) : List String :=
  ((t.node p).children.filter t.leadsToActive).map fun c => (t.node c).name

theorem Linked.nodup_liveNames (h : t.Linked []) (p : NodeId) : (t.liveNames p).Nodup :=
  (h.apart p).sublist (List.filter_sublist.map _)

theorem mem_liveNames : name ∈ t.liveNames p ↔
    ∃ c ∈ (t.node p).children, t.leadsToActive c = true ∧ (t.node c).name = name := by
  simp [liveNames, and_assoc]

/-- Which names they are depends on the active clients and the path only. -/
theorem Sound.mem_liveNames_iff (h : t.Sound) (hp : t.Live p)
    (hkind : (t.node p).kind = .internal) :
    name ∈ t.liveNames p ↔
      name = RolePath.ownLeaf ∧ (t.node p).path ≠ "" ∧ t.IsActiveClient (t.node p).path ∨
        name ≠ RolePath.ownLeaf ∧ RolePath.IsName name ∧
          t.IsActiveRole (RolePath.join (t.node p).path name) := by
  rw [mem_liveNames]
  constructor
  · rintro ⟨c, hc, hleads, rfl⟩
    obtain ⟨hlive, -, hparent, hpath⟩ := h.linked.down hc
    by_cases hname : (t.node c).name = RolePath.ownLeaf
    · refine .inl ⟨hname, ?_, (h.leadsToActive_own hc hname).mp hleads⟩
      intro hempty
      have hproot := h.linked.path_injective hp h.linked.root_live
        (hempty.trans h.linked.root_path.symm)
      exact (h.linked.own hlive hname).2 (hproot ▸ hparent)
    · have hroot := h.linked.child_ne_root hc
      refine .inr ⟨hname, h.linked.named hlive hroot, ?_⟩
      rw [← hpath]
      exact (h.leadsToActive_iff_role hlive hroot hname).mp hleads
  · rintro (⟨rfl, -, hactive⟩ | ⟨hname, hvalid, hrole⟩)
    · obtain ⟨leaf, hclient, -⟩ := id hactive
      obtain ⟨hlive, hleaf, ⟨-, hpath⟩ | ⟨hown, q, -, hmem, hpath, -⟩⟩ := h.leaf_cases hclient
      · -- A plain leaf cannot have the path of an internal node.
        have hsame := h.linked.path_injective hlive hp hpath
        exact absurd hsame (ne_of_isLeaf hleaf hkind)
      · obtain rfl := h.linked.path_injective (live_of_mem_children hmem) hp hpath
        exact ⟨leaf, hmem, (h.leadsToActive_own hmem hown).mpr hactive, hown⟩
    · obtain ⟨q, c, hmem, hq, hn, hleads⟩ := h.exists_child_of_role hvalid hrole
      obtain rfl := h.linked.path_injective (live_of_mem_children hmem) hp hq
      exact ⟨c, hmem, hleads, hn⟩

end RoleLottery.RoleTree
