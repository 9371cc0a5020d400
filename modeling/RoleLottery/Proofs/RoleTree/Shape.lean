import RoleLottery.Proofs.RoleTree.History

/-!
# Shape of a role tree

The nodes of a sound tree are determined by its clients. A role has an internal node when it has
clients below it; a client without such has a leaf with its path, and any other a leaf of its own
below its role. Trees with the same accounts are the same up to the order of siblings and the
numbers of slots.
-/

namespace RoleLottery

theorem RolePath.Extends.trans {path role other : String} (h : Extends path role)
    (h' : Extends role other) : Extends path other := by
  obtain ⟨rest, rfl⟩ := h
  obtain ⟨rest', rfl⟩ := h'
  exact ⟨rest' ++ "/" ++ rest, by simp [String.append_assoc]⟩

namespace RoleTree

variable {α ω : Type} {t t' : RoleTree α ω} {x y p : NodeId} {client role path : String}

theorem Linked.induction_up (h : t.Linked []) {motive : NodeId → Prop}
    (hstep : ∀ {p}, t.Live p → (∀ c ∈ (t.node p).children, motive c) → motive p) (hx : t.Live x) :
    motive x := by
  induction hn : t.slots.size - RolePath.depth (t.node x).path using Nat.strongRecOn
    generalizing x with
  | ind n ih =>
    refine hstep hx fun c hc => ih _ ?_ (h.down hc).1 rfl
    have hdepth := h.depth_child hc
    have hlt := h.depth_lt_size (h.down hc).1
    omega

theorem Linked.exists_role (h : t.Linked []) (hx : t.Live x)
    (hpath : RolePath.Extends (t.node x).path role) :
    ∃ y, t.Live y ∧ y ≠ t.top ∧ (t.node y).kind = .internal ∧ (t.node y).path = role := by
  refine h.induction_down (motive := fun x => RolePath.Extends (t.node x).path role →
    ∃ y, t.Live y ∧ y ≠ t.top ∧ (t.node y).kind = .internal ∧ (t.node y).path = role) ?_ ?_ hx hpath
  · intro hpath
    rw [h.root_path] at hpath
    exact absurd hpath (RolePath.not_extends_empty role)
  · intro p c hmem ih hpath
    obtain ⟨hc, -, -, hcpath⟩ := h.down hmem
    rw [hcpath, RolePath.extends_join (h.named hc (h.child_ne_root hmem))] at hpath
    obtain ⟨hne, hp | hp⟩ := hpath
    · refine ⟨p, live_of_mem_children hmem, ?_, h.kind_of_child hmem, hp⟩
      intro he
      subst he
      exact hne h.root_path
    · exact ih hp

/-- The node of a leaf is named by its client: it has its path, or hangs below the role with it. -/
theorem Sound.leaf_cases (h : t.Sound) (hclient : t.client? client = some x) :
    t.Live x ∧ (t.node x).kind.isLeaf ∧
      ((t.node x).name ≠ RolePath.ownLeaf ∧ (t.node x).path = client ∨
        (t.node x).name = RolePath.ownLeaf ∧ ∃ p, p ≠ t.top ∧ x ∈ (t.node p).children ∧
          (t.node p).path = client ∧ (t.node x).path = client ++ "/" ++ RolePath.ownLeaf) := by
  obtain ⟨hlive, -, hleaf, hc⟩ := (h.registered client x).mp hclient
  refine ⟨hlive, hleaf, ?_⟩
  by_cases hname : (t.node x).name = RolePath.ownLeaf
  · obtain ⟨p, hparent, hmem⟩ :=
      h.linked.up hlive (h.linked.ne_root_of_leaf hleaf) List.not_mem_nil
    have hpath := (h.linked.down hmem).2.2.2
    have hp : p ≠ t.top := by
      intro he
      subst he
      exact (h.linked.own hlive hname).2 hparent
    rw [clientOf_of_parent hparent hname] at hc
    refine .inr ⟨hname, p, hp, hmem, hc, ?_⟩
    obtain ⟨q, -, hpmem⟩ := h.linked.up (live_of_mem_children hmem) hp List.not_mem_nil
    rw [hpath, hname, RolePath.join, if_neg (h.linked.path_ne_empty hpmem), hc]
  · rw [clientOf_of_name_ne hname] at hc
    exact .inl ⟨hname, hc⟩

theorem Sound.exists_client (h : t.Sound) (hx : t.Live x) (hroot : x ≠ t.top)
    (hkind : (t.node x).kind = .internal) :
    ∃ client, (t.client? client).isSome ∧ RolePath.Extends client (t.node x).path := by
  refine h.linked.induction_up (motive := fun x => x ≠ t.top → (t.node x).kind = .internal →
    ∃ client, (t.client? client).isSome ∧ RolePath.Extends client (t.node x).path) ?_ hx hroot hkind
  intro p hp ih hroot hkind
  obtain ⟨c, hc, hname⟩ := h.branching p hp hkind hroot List.not_mem_nil
  obtain ⟨hlive, -, -, hpath⟩ := h.linked.down hc
  have hcroot := h.linked.child_ne_root hc
  obtain ⟨q, -, hpmem⟩ := h.linked.up hp hroot List.not_mem_nil
  have hextends : RolePath.Extends (t.node c).path (t.node p).path := by
    rw [hpath, RolePath.join, if_neg (h.linked.path_ne_empty hpmem)]
    exact ⟨_, rfl⟩
  by_cases hckind : (t.node c).kind = .internal
  · obtain ⟨client, hclient, hbelow⟩ := ih c hc hcroot hckind
    exact ⟨client, hclient, hbelow.trans hextends⟩
  · refine ⟨(t.node c).path, ?_, hextends⟩
    have hsome := (h.registered (t.node c).path c).mpr
      ⟨hlive, List.not_mem_nil, isLeaf_iff.mpr hckind, clientOf_of_name_ne hname⟩
    rw [hsome, Option.isSome_some]

theorem Sound.internal_iff (h : t.Sound) (role : String) :
    (∃ x, t.Live x ∧ x ≠ t.top ∧ (t.node x).kind = .internal ∧ (t.node x).path = role) ↔
      ∃ client, (t.client? client).isSome ∧ RolePath.Extends client role := by
  constructor
  · rintro ⟨x, hx, hroot, hkind, rfl⟩
    exact h.exists_client hx hroot hkind
  · rintro ⟨client, hclient, hextends⟩
    obtain ⟨x, hx⟩ := Option.isSome_iff_exists.mp hclient
    obtain ⟨hlive, -, ⟨-, hpath⟩ | ⟨-, p, -, hmem, hpath, -⟩⟩ := h.leaf_cases hx
    · exact h.linked.exists_role hlive (hpath ▸ hextends)
    · exact h.linked.exists_role (live_of_mem_children hmem) (hpath ▸ hextends)

theorem Sound.plain_iff (h : t.Sound) (client : String) :
    (∃ x, t.Live x ∧ (t.node x).kind.isLeaf ∧ (t.node x).name ≠ RolePath.ownLeaf ∧
        (t.node x).path = client) ↔
      (t.client? client).isSome ∧
        ¬ ∃ other, (t.client? other).isSome ∧ RolePath.Extends other client := by
  rw [← h.internal_iff client]
  constructor
  · rintro ⟨x, hx, hleaf, hname, rfl⟩
    have hclient := h.client?_clientOf hx hleaf
    rw [clientOf_of_name_ne hname] at hclient
    refine ⟨by rw [hclient, Option.isSome_some], ?_⟩
    rintro ⟨y, hy, -, hkind, hpath⟩
    exact ne_of_isLeaf hleaf hkind (h.linked.path_injective hx hy hpath.symm)
  · rintro ⟨hclient, hnone⟩
    obtain ⟨x, hx⟩ := Option.isSome_iff_exists.mp hclient
    obtain ⟨hlive, hleaf, ⟨hname, hpath⟩ | ⟨-, p, hp, hmem, hpath, -⟩⟩ := h.leaf_cases hx
    · exact ⟨x, hlive, hleaf, hname, hpath⟩
    · exact absurd ⟨p, live_of_mem_children hmem, hp, h.linked.kind_of_child hmem, hpath⟩ hnone

theorem Sound.own_iff (h : t.Sound) (client : String) :
    (∃ x, t.Live x ∧ (t.node x).kind.isLeaf ∧ (t.node x).name = RolePath.ownLeaf ∧
        (t.node x).path = client ++ "/" ++ RolePath.ownLeaf) ↔
      (t.client? client).isSome ∧
        ∃ other, (t.client? other).isSome ∧ RolePath.Extends other client := by
  rw [← h.internal_iff client]
  constructor
  · rintro ⟨x, hx, hleaf, hname, hpath⟩
    obtain ⟨-, -, ⟨hne, -⟩ | ⟨-, p, hp, hmem, hppath, hxpath⟩⟩ :=
      h.leaf_cases (h.client?_clientOf hx hleaf)
    · exact absurd hname hne
    · have hclient : t.clientOf x = client := by
        rw [hpath, ← String.toList_inj] at hxpath
        exact String.toList_inj.mp (by simpa using hxpath.symm)
      refine ⟨by rw [← hclient, h.client?_clientOf hx hleaf, Option.isSome_some], p,
        live_of_mem_children hmem, hp, h.linked.kind_of_child hmem, hppath.trans hclient⟩
  · rintro ⟨hclient, y, hy, hyroot, hkind, hypath⟩
    obtain ⟨x, hx⟩ := Option.isSome_iff_exists.mp hclient
    obtain ⟨hlive, hleaf, ⟨hname, hpath⟩ | ⟨hname, p, hp, hmem, -, hpath⟩⟩ := h.leaf_cases hx
    · have hxy := h.linked.path_injective hlive hy (hpath.trans hypath.symm)
      exact absurd hxy (ne_of_isLeaf hleaf hkind)
    · exact ⟨x, hlive, hleaf, hname, hpath⟩

/-! ## Trees with the same accounts -/

/-- The tree `t'` is the tree `t` up to the order of siblings, with the node `x` in the slot
`f x`. -/
structure Alike (t t' : RoleTree α ω) (f : NodeId → NodeId) : Prop where
  root : f t.top = t'.top
  live : ∀ {x}, t.Live x → t'.Live (f x)
  injective : ∀ {x y}, t.Live x → t.Live y → f x = f y → x = y
  surjective : ∀ {y}, t'.Live y → ∃ x, t.Live x ∧ f x = y
  name : ∀ {x}, t.Live x → (t'.node (f x)).name = (t.node x).name
  path : ∀ {x}, t.Live x → (t'.node (f x)).path = (t.node x).path
  kind : ∀ {x}, t.Live x → (t'.node (f x)).kind = (t.node x).kind
  parent : ∀ {x}, t.Live x → (t'.node (f x)).parent = (t.node x).parent.map f
  children : ∀ {x}, t.Live x → (t'.node (f x)).children.Perm ((t.node x).children.map f)
  ledger : ∀ {x}, t.Live x → (t.node x).kind.isLeaf → (t'.node (f x)).ledger = (t.node x).ledger
  clients : ∀ client, t'.client? client = (t.client? client).map f

theorem Sound.leaf_path (h : t.Sound) (hclient : t.client? client = some x) :
    ((∃ other, (t.client? other).isSome ∧ RolePath.Extends other client) →
        (t.node x).path = client ++ "/" ++ RolePath.ownLeaf) ∧
      ((¬ ∃ other, (t.client? other).isSome ∧ RolePath.Extends other client) →
        (t.node x).path = client) := by
  obtain ⟨hlive, hleaf, ⟨hname, hpath⟩ | ⟨hname, -, -, -, -, hpath⟩⟩ := h.leaf_cases hclient
  · have hnone := ((h.plain_iff client).mp ⟨x, hlive, hleaf, hname, hpath⟩).2
    exact ⟨fun hsome => absurd hsome hnone, fun _ => hpath⟩
  · have hsome := ((h.own_iff client).mp ⟨x, hlive, hleaf, hname, hpath⟩).2
    exact ⟨fun _ => hpath, fun hnone => absurd hsome hnone⟩

private theorem kind_eq_of_active {kind other : NodeKind} (hkind : kind.isLeaf)
    (hother : other.isLeaf) (h : decide (kind = .active) = decide (other = .active)) :
    kind = other := by
  cases kind <;> cases other <;> simp_all [NodeKind.isLeaf]

private theorem isSome_client?_congr
    (haccounts : ∀ client, t'.account? client = t.account? client) (client : String) :
    (t'.client? client).isSome = (t.client? client).isSome := by
  simpa [account?] using congrArg Option.isSome (haccounts client)

theorem Sound.path_eq_of_client (h : t.Sound) (h' : t'.Sound)
    (hclients : ∀ client, (t'.client? client).isSome = (t.client? client).isSome)
    (hx : t.client? client = some x) (hy : t'.client? client = some y) :
    (t'.node y).path = (t.node x).path := by
  have hxpath := h.leaf_path hx
  have hypath := h'.leaf_path hy
  simp only [hclients] at hypath
  by_cases hshared : ∃ other, (t.client? other).isSome ∧ RolePath.Extends other client
  · rw [hypath.1 hshared, hxpath.1 hshared]
  · rw [hypath.2 hshared, hxpath.2 hshared]

theorem Sound.exists_counterpart (h : t.Sound) (h' : t'.Sound)
    (haccounts : ∀ client, t'.account? client = t.account? client) (hx : t.Live x) :
    ∃ y, t'.Live y ∧ (t'.node y).path = (t.node x).path ∧ (t'.node y).kind = (t.node x).kind ∧
      ((t.node x).kind.isLeaf → (t'.node y).ledger = (t.node x).ledger) := by
  have hclients := isSome_client?_congr haccounts
  by_cases hkind : (t.node x).kind = .internal
  · have hleaf : ¬ (t.node x).kind.isLeaf := by simp [isLeaf_iff, hkind]
    by_cases hroot : x = t.top
    · subst hroot
      exact ⟨t'.top, h'.linked.root_live, h'.linked.root_path.trans h.linked.root_path.symm,
        h'.linked.root_kind.trans h.linked.root_kind.symm, fun hl => absurd hl hleaf⟩
    · have hrole := (h.internal_iff _).mp ⟨x, hx, hroot, hkind, rfl⟩
      simp only [← hclients] at hrole
      obtain ⟨y, hy, -, hykind, hypath⟩ := (h'.internal_iff _).mpr hrole
      exact ⟨y, hy, hypath, hykind.trans hkind.symm, fun hl => absurd hl hleaf⟩
  · have hleaf := isLeaf_iff.mpr hkind
    have hclient := h.client?_clientOf hx hleaf
    have haccount : t'.account? (t.clientOf x) = some (t.accountAt x) := by
      rw [haccounts, account?, hclient, Option.map_some]
    obtain ⟨y, hy, hyaccount⟩ := account?_eq_some_iff.mp haccount
    obtain ⟨hactive, hledger⟩ := Account.mk.inj hyaccount
    obtain ⟨hylive, hyleaf, -⟩ := h'.leaf_cases hy
    exact ⟨y, hylive, h.path_eq_of_client h' hclients hclient hy,
      kind_eq_of_active hyleaf hleaf hactive, fun _ => hledger⟩

theorem Linked.of_path_eq (h : t.Linked []) (h' : t'.Linked []) (hx : t.Live x) (hy : t'.Live y)
    (hpath : (t'.node y).path = (t.node x).path) :
    (t'.node y).name = (t.node x).name ∧
      ((t.node x).parent = none ∧ (t'.node y).parent = none ∨
        ∃ p q, (t.node x).parent = some p ∧ (t'.node y).parent = some q ∧
          x ∈ (t.node p).children ∧ y ∈ (t'.node q).children ∧
          (t'.node q).path = (t.node p).path) := by
  by_cases hxroot : x = t.top
  · have hyroot : y = t'.top := by
      by_contra hyroot
      obtain ⟨q, -, hymem⟩ := h'.up hy hyroot List.not_mem_nil
      rw [hxroot, h.root_path] at hpath
      exact h'.path_ne_empty hymem hpath
    subst hxroot hyroot
    exact ⟨h'.root_name.trans h.root_name.symm, .inl ⟨h.root_parent, h'.root_parent⟩⟩
  · obtain ⟨p, hparent, hmem⟩ := h.up hx hxroot List.not_mem_nil
    have hyroot : y ≠ t'.top := by
      intro he
      subst he
      rw [h'.root_path] at hpath
      exact h.path_ne_empty hmem hpath.symm
    obtain ⟨q, hyparent, hymem⟩ := h'.up hy hyroot List.not_mem_nil
    rw [(h.down hmem).2.2.2, (h'.down hymem).2.2.2] at hpath
    obtain ⟨hqp, hname⟩ := RolePath.join_injective (h'.named hy hyroot) (h.named hx hxroot) hpath
    exact ⟨hname, .inr ⟨p, q, hparent, hyparent, hmem, hymem, hqp⟩⟩

/-- The map `f` sends each node to one with the same path, kind and holdings. -/
structure Matches (t t' : RoleTree α ω) (f : NodeId → NodeId) : Prop where
  live : ∀ {x}, t.Live x → t'.Live (f x)
  path : ∀ {x}, t.Live x → (t'.node (f x)).path = (t.node x).path
  kind : ∀ {x}, t.Live x → (t'.node (f x)).kind = (t.node x).kind
  ledger : ∀ {x}, t.Live x → (t.node x).kind.isLeaf → (t'.node (f x)).ledger = (t.node x).ledger

theorem Sound.exists_matches (h : t.Sound) (h' : t'.Sound)
    (haccounts : ∀ client, t'.account? client = t.account? client) : ∃ f, Matches t t' f := by
  have hcounterpart (x : NodeId) : ∃ y, t.Live x → t'.Live y ∧
      (t'.node y).path = (t.node x).path ∧ (t'.node y).kind = (t.node x).kind ∧
      ((t.node x).kind.isLeaf → (t'.node y).ledger = (t.node x).ledger) := by
    by_cases hx : t.Live x
    · obtain ⟨y, hy⟩ := h.exists_counterpart h' haccounts hx
      exact ⟨y, fun _ => hy⟩
    · exact ⟨t.top, fun hlive => absurd hlive hx⟩
  choose f hf using hcounterpart
  exact ⟨f, fun hx => (hf _ hx).1, fun hx => (hf _ hx).2.1, fun hx => (hf _ hx).2.2.1,
    fun hx => (hf _ hx).2.2.2⟩

namespace Matches

variable {f : NodeId → NodeId}

theorem eq_of_path_eq (m : Matches t t' f) (h' : t'.Linked []) (hx : t.Live x) (hy : t'.Live y)
    (hpath : (t'.node y).path = (t.node x).path) : f x = y :=
  h'.path_injective (m.live hx) hy ((m.path hx).trans hpath.symm)

theorem injective (m : Matches t t' f) (h : t.Linked []) (hx : t.Live x) (hy : t.Live y)
    (he : f x = f y) : x = y := by
  apply h.path_injective hx hy
  rw [← m.path hx, ← m.path hy, he]

theorem name (m : Matches t t' f) (h : t.Linked []) (h' : t'.Linked []) (hx : t.Live x) :
    (t'.node (f x)).name = (t.node x).name :=
  (h.of_path_eq h' hx (m.live hx) (m.path hx)).1

theorem parent (m : Matches t t' f) (h : t.Linked []) (h' : t'.Linked []) (hx : t.Live x) :
    (t'.node (f x)).parent = (t.node x).parent.map f := by
  rcases (h.of_path_eq h' hx (m.live hx) (m.path hx)).2 with
    ⟨hnone, hnone'⟩ | ⟨p, q, hp, hq, hmem, hmem', hpath⟩
  · rw [hnone, hnone', Option.map_none]
  · rw [hp, hq, Option.map_some,
      m.eq_of_path_eq h' (live_of_mem_children hmem) (live_of_mem_children hmem') hpath]

theorem mem_children_iff (m : Matches t t' f) (h : t.Linked []) (h' : t'.Linked [])
    (hx : t.Live x) (hy : t.Live y) :
    f y ∈ (t'.node (f x)).children ↔ y ∈ (t.node x).children := by
  constructor
  · intro hmem
    have hparent := (h'.down hmem).2.2.1
    rw [m.parent h h' hy, Option.map_eq_some_iff] at hparent
    obtain ⟨p, hp, hpx⟩ := hparent
    rw [m.injective h (h.parent_live hy hp) hx hpx] at hp
    exact h.mem_children_of_parent hy hp
  · intro hmem
    refine h'.mem_children_of_parent (m.live hy) ?_
    rw [m.parent h h' hy, (h.down hmem).2.2.1, Option.map_some]

theorem children (m : Matches t t' f) (h : t.Linked []) (h' : t'.Linked [])
    (hsurjective : ∀ {y}, t'.Live y → ∃ x, t.Live x ∧ f x = y) (hx : t.Live x) :
    (t'.node (f x)).children.Perm ((t.node x).children.map f) := by
  have hnodup : ((t.node x).children.map f).Nodup :=
    (h.nodup_children x).map_on fun c hc d hd he =>
      m.injective h (h.down hc).1 (h.down hd).1 he
  refine (List.perm_ext_iff_of_nodup (h'.nodup_children _) hnodup).mpr fun y => ?_
  rw [List.mem_map]
  constructor
  · intro hy
    obtain ⟨c, hc, he⟩ := hsurjective (h'.down hy).1
    rw [← he] at hy
    exact ⟨c, (m.mem_children_iff h h' hx hc).mp hy, he⟩
  · intro hy
    obtain ⟨c, hc, he⟩ := hy
    rw [← he]
    exact (m.mem_children_iff h h' hx (h.down hc).1).mpr hc

theorem client? (m : Matches t t' f) (h : t.Sound) (h' : t'.Sound)
    (hclients : ∀ client, (t'.client? client).isSome = (t.client? client).isSome)
    (client : String) : t'.client? client = (t.client? client).map f := by
  have hclient := hclients client
  cases hx : t.client? client with
  | none =>
    rw [hx, Option.isSome_none, Option.isSome_eq_false_iff, Option.isNone_iff_eq_none] at hclient
    rw [hclient, Option.map_none]
  | some x =>
    rw [hx, Option.isSome_some, Option.isSome_iff_exists] at hclient
    obtain ⟨y, hy⟩ := hclient
    have hpath := h.path_eq_of_client h' hclients hx hy
    rw [hy, Option.map_some,
      m.eq_of_path_eq h'.linked (h.leaf_cases hx).1 (h'.leaf_cases hy).1 hpath]

end Matches

/-- Trees with the same accounts are alike. -/
theorem Sound.exists_alike (h : t.Sound) (h' : t'.Sound)
    (haccounts : ∀ client, t'.account? client = t.account? client) : ∃ f, Alike t t' f := by
  obtain ⟨f, m⟩ := h.exists_matches h' haccounts
  have hsurjective {y : NodeId} (hy : t'.Live y) : ∃ x, t.Live x ∧ f x = y := by
    obtain ⟨x, hx, hpath, -⟩ := h'.exists_counterpart h (fun c => (haccounts c).symm) hy
    exact ⟨x, hx, m.eq_of_path_eq h'.linked hx hy hpath.symm⟩
  refine ⟨f, ?_⟩
  constructor
  case root =>
    apply m.eq_of_path_eq h'.linked h.linked.root_live h'.linked.root_live
    rw [h.linked.root_path, h'.linked.root_path]
  case live => exact m.live
  case injective => exact m.injective h.linked
  case surjective => exact hsurjective
  case name => exact m.name h.linked h'.linked
  case path => exact m.path
  case kind => exact m.kind
  case ledger => exact m.ledger
  case parent => exact m.parent h.linked h'.linked
  case children => exact m.children h.linked h'.linked hsurjective
  case clients => exact m.client? h h' (isSome_client?_congr haccounts)

end RoleTree

end RoleLottery
