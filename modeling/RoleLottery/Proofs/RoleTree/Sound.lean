import RoleLottery.Proofs.RoleTree.Moves

/-!
# Sound role trees

Besides the links, two things hold in every tree that the operations built: no role stands for its
own client alone, and the leaves are exactly those in the table of clients.
-/

namespace RoleLottery.RoleTree

variable {α ω : Type} {t t' : RoleTree α ω} {out : List NodeId} {x p c : NodeId}

/-- Below every role, except those in `out`, stands more than the leaf of its own client. -/
def Branching (out : List NodeId) (t : RoleTree α ω) : Prop :=
  ∀ id, t.Live id → (t.node id).kind = .internal → id ≠ t.top → id ∉ out →
    ∃ c ∈ (t.node id).children, (t.node c).name ≠ RolePath.ownLeaf

/-- The table of clients lists the leaves, except those in `out`, under their clients. -/
def Registered (out : List NodeId) (t : RoleTree α ω) : Prop :=
  ∀ client id, t.client? client = some id ↔
    t.Live id ∧ id ∉ out ∧ (t.node id).kind.isLeaf ∧ t.clientOf id = client

structure Sound (t : RoleTree α ω) : Prop where
  linked : t.Linked []
  branching : t.Branching []
  registered : t.Registered []

/-! ## The client of a leaf -/

theorem clientOf_of_name_ne (h : (t.node x).name ≠ RolePath.ownLeaf) :
    t.clientOf x = (t.node x).path := by
  unfold clientOf
  dsimp only
  split
  · rw [if_neg h]
  · rfl

theorem clientOf_of_parent (hparent : (t.node x).parent = some p)
    (h : (t.node x).name = RolePath.ownLeaf) : t.clientOf x = (t.node p).path := by
  unfold clientOf
  simp [hparent, h]

theorem clientOf_congr (hname : (t'.node x).name = (t.node x).name)
    (hpath : (t'.node x).path = (t.node x).path) (hparent : (t'.node x).parent = (t.node x).parent)
    (hup : ∀ p, (t.node x).parent = some p → (t'.node p).path = (t.node p).path) :
    t'.clientOf x = t.clientOf x := by
  unfold clientOf
  dsimp only
  rw [hname, hpath, hparent]
  cases hp : (t.node x).parent with
  | none => rfl
  | some p => simp [hup p hp]

theorem Sound.client?_clientOf (h : t.Sound) (hx : t.Live x) (hleaf : (t.node x).kind.isLeaf) :
    t.client? (t.clientOf x) = some x :=
  (h.registered _ x).mpr ⟨hx, List.not_mem_nil, hleaf, rfl⟩

theorem Linked.mem_children_of_parent (h : t.Linked []) (hx : t.Live x)
    (hp : (t.node x).parent = some p) : x ∈ (t.node p).children := by
  have hroot : x ≠ t.top := by
    intro he
    subst he
    rw [h.root_parent] at hp
    exact absurd hp (by simp)
  obtain ⟨q, hq, hmem⟩ := h.up hx hroot List.not_mem_nil
  rw [hp] at hq
  obtain rfl := Option.some.inj hq
  exact hmem

theorem Linked.parent_live (h : t.Linked []) (hx : t.Live x) (hp : (t.node x).parent = some p) :
    t.Live p :=
  live_of_mem_children (h.mem_children_of_parent hx hp)

theorem Linked.parent_internal (h : t.Linked []) (hx : t.Live x)
    (hp : (t.node x).parent = some p) : (t.node p).kind = .internal :=
  h.kind_of_child (h.mem_children_of_parent hx hp)

theorem Registered.ne_of_client_ne (hr : t.Registered out) {client other : String} {y : NodeId}
    (hx : t.client? client = some x) (hy : t.client? other = some y) (hne : client ≠ other) :
    y ≠ x := by
  intro he
  have hyclient := ((hr other y).mp hy).2.2.2
  rw [he, ((hr client x).mp hx).2.2.2] at hyclient
  exact hne hyclient

/-! ## Weights and ledgers -/

/-- The trees differ in weights, ledgers and clients only. -/
structure SameLinks (t t' : RoleTree α ω) : Prop where
  top : t'.top = t.top
  free : t'.free = t.free
  size : t'.slots.size = t.slots.size
  live : ∀ id, t'.Live id ↔ t.Live id
  node : ∀ id, ∃ weight ledger, t'.node id = { t.node id with weight := weight, ledger := ledger }

namespace SameLinks

theorem modify (t : RoleTree α ω) (id : NodeId) {f : Node α ω → Node α ω}
    (hf : ∀ n, ∃ weight ledger, f n = { n with weight := weight, ledger := ledger }) :
    SameLinks t (t.modify id f) := by
  refine ⟨rfl, rfl, by simp, by simp, fun other => ?_⟩
  by_cases hlive : other = id ∧ t.Live id
  · obtain ⟨rfl, hlive⟩ := hlive
    rw [node_modify_self _ _ _ hlive]
    exact hf _
  · refine ⟨(t.node other).weight, (t.node other).ledger, ?_⟩
    by_cases hid : other = id
    · subst hid
      have hdead : ¬ t.Live other := fun hl => hlive ⟨rfl, hl⟩
      rw [node_of_not_live hdead, node_of_not_live (by simpa using hdead)]
    · rw [node_modify_ne _ _ _ hid]

theorem name (s : SameLinks t t') (id : NodeId) : (t'.node id).name = (t.node id).name := by
  obtain ⟨_, _, hnode⟩ := s.node id
  rw [hnode]

theorem path (s : SameLinks t t') (id : NodeId) : (t'.node id).path = (t.node id).path := by
  obtain ⟨_, _, hnode⟩ := s.node id
  rw [hnode]

theorem kind (s : SameLinks t t') (id : NodeId) : (t'.node id).kind = (t.node id).kind := by
  obtain ⟨_, _, hnode⟩ := s.node id
  rw [hnode]

theorem parent (s : SameLinks t t') (id : NodeId) : (t'.node id).parent = (t.node id).parent := by
  obtain ⟨_, _, hnode⟩ := s.node id
  rw [hnode]

theorem children (s : SameLinks t t') (id : NodeId) :
    (t'.node id).children = (t.node id).children := by
  obtain ⟨_, _, hnode⟩ := s.node id
  rw [hnode]

theorem refl (t : RoleTree α ω) : SameLinks t t :=
  ⟨rfl, rfl, rfl, fun _ => Iff.rfl, fun id => ⟨(t.node id).weight, (t.node id).ledger, rfl⟩⟩

theorem trans {t'' : RoleTree α ω} (s : SameLinks t t') (s' : SameLinks t' t'') :
    SameLinks t t'' := by
  refine ⟨s'.top.trans s.top, s'.free.trans s.free, s'.size.trans s.size,
    fun id => (s'.live id).trans (s.live id), fun id => ?_⟩
  obtain ⟨_, _, hnode⟩ := s.node id
  obtain ⟨weight, ledger, hnode'⟩ := s'.node id
  exact ⟨weight, ledger, by rw [hnode', hnode]⟩

theorem clientOf (s : SameLinks t t') (id : NodeId) : t'.clientOf id = t.clientOf id :=
  clientOf_congr (s.name id) (s.path id) (s.parent id) fun p _ => s.path p

theorem linked (s : SameLinks t t') (h : t.Linked out) : t'.Linked out where
  free := h.free.congr s.free s.size s.live
  out_nodup := h.out_nodup
  out_live hid := by simpa only [s.live, s.top] using h.out_live hid
  root_live := by simpa only [s.live, s.top] using h.root_live
  root_name := by simpa only [s.name, s.top] using h.root_name
  root_path := by simpa only [s.path, s.top] using h.root_path
  root_kind := by simpa only [s.kind, s.top] using h.root_kind
  root_parent := by simpa only [s.parent, s.top] using h.root_parent
  up hid hne hout := by
    simpa only [s.parent, s.children] using h.up ((s.live _).mp hid) (s.top ▸ hne) hout
  down hc := by
    simpa only [s.live, s.parent, s.path, s.name] using h.down ((s.children _) ▸ hc)
  apart p := by simpa only [s.children, s.name] using h.apart p
  leaf hleaf := (s.children _).trans (h.leaf ((s.kind _) ▸ hleaf))
  named hid hne := by simpa only [s.name] using h.named ((s.live _).mp hid) (s.top ▸ hne)
  own hid hname := by
    simpa only [s.kind, s.parent, s.top] using
      h.own ((s.live _).mp hid) ((s.name _).symm.trans hname)
  ordered p := by simpa only [s.children, s.kind] using h.ordered p

theorem branching (s : SameLinks t t') (h : t.Branching out) : t'.Branching out := by
  intro id
  simpa only [s.live, s.kind, s.top, s.children, s.name] using h id

theorem registered (s : SameLinks t t') (hclients : t'.clients = t.clients)
    (h : t.Registered out) : t'.Registered out := by
  intro client id
  rw [client?_congr hclients, h, s.live, s.kind, s.clientOf]

theorem sound (s : SameLinks t t') (hclients : t'.clients = t.clients) (h : t.Sound) : t'.Sound :=
  ⟨s.linked h.linked, s.branching h.branching, s.registered hclients h.registered⟩

end SameLinks

/-! ## Trees that grow -/

/-- The nodes of `t` are in `t'`, of the same kind and with the same holdings. -/
structure Keeps (t t' : RoleTree α ω) : Prop where
  top : t'.top = t.top
  clients : t'.clients = t.clients
  live : ∀ {id}, t.Live id → t'.Live id
  kind : ∀ {id}, t.Live id → (t'.node id).kind = (t.node id).kind
  ledger : ∀ {id}, t.Live id → (t'.node id).ledger = (t.node id).ledger

theorem Keeps.refl (t : RoleTree α ω) : Keeps t t := ⟨rfl, rfl, id, fun _ => rfl, fun _ => rfl⟩

theorem Keeps.trans {t'' : RoleTree α ω} (h : Keeps t t') (h' : Keeps t' t'') : Keeps t t'' where
  top := h'.top.trans h.top
  clients := h'.clients.trans h.clients
  live hid := h'.live (h.live hid)
  kind hid := (h'.kind (h.live hid)).trans (h.kind hid)
  ledger hid := (h'.ledger (h.live hid)).trans (h.ledger hid)

namespace Sprouts

variable {n : Node α ω}

theorem ne_of_live (s : Sprouts t p c n t') (hx : t.Live x) : x ≠ c := by
  intro he
  subst he
  exact s.fresh hx

theorem keeps (s : Sprouts t p c n t') : Keeps t t' where
  top := s.top
  clients := s.clients
  live hid := (s.live _).mpr (.inr hid)
  kind hid := by rw [s.old (s.ne_of_live hid)]
  ledger hid := by rw [s.old (s.ne_of_live hid)]

theorem clientOf (h : t.Linked []) (s : Sprouts t p c n t') (hx : t.Live x) :
    t'.clientOf x = t.clientOf x := by
  have hnode := s.old (s.ne_of_live hx)
  refine clientOf_congr (by rw [hnode]) (by rw [hnode]) (by rw [hnode]) fun q hq => ?_
  rw [s.old (s.ne_of_live (h.parent_live hx hq))]

theorem registered (h : t.Linked []) (s : Sprouts t p c n t') (hr : t.Registered []) :
    t'.Registered [c] := by
  intro client id
  rw [client?_congr s.clients, hr, s.live]
  by_cases hid : id = c
  · subst hid
    simp [s.fresh]
  · rw [s.old hid]
    by_cases hlive : t.Live id
    · simp [hid, hlive, s.clientOf h hlive]
    · simp [hid, hlive]

theorem mem_children (s : Sprouts t p c n t') (hx : x ≠ c) {d : NodeId} :
    d ∈ (t'.node x).children ↔ x = p ∧ d = c ∨ d ∈ (t.node x).children := by
  rw [s.old hx]
  by_cases hxp : x = p
  · simp [hxp]
  · simp [hxp]

theorem branching (h : t.Linked []) (s : Sprouts t p c n t') {out' : List NodeId}
    (hb : t.Branching out) (hout : ∀ id ∈ out, id ∈ out' ∨ id = p ∧ n.name ≠ RolePath.ownLeaf)
    (hc : n.kind = .internal → c ∈ out') : t'.Branching out' := by
  intro id hid hkind hroot hnot
  rw [s.top] at hroot
  by_cases hidc : id = c
  · subst hidc
    rw [s.new] at hkind
    exact absurd (hc hkind) hnot
  · by_cases hidp : id = p ∧ n.name ≠ RolePath.ownLeaf
    · exact ⟨c, (s.mem_children hidc).mpr (.inl ⟨hidp.1, rfl⟩), by rw [s.new]; exact hidp.2⟩
    · have hlive : t.Live id := ((s.live id).mp hid).resolve_left hidc
      rw [s.old hidc] at hkind
      obtain ⟨d, hd, hname⟩ := hb id hlive hkind hroot fun hmem =>
        (hout id hmem).elim hnot hidp
      refine ⟨d, (s.mem_children hidc).mpr (.inr hd), ?_⟩
      rwa [s.old (s.ne_of_live (h.down hd).1)]

end Sprouts

namespace Splits

variable {leaf : NodeId}

theorem ne_of_live (s : Splits t leaf c t') (hx : t.Live x) : x ≠ c := by
  intro he
  subst he
  exact s.fresh hx

theorem keeps (s : Splits t leaf c t') : Keeps t t' where
  top := s.top
  clients := s.clients
  live hid := (s.live _).mpr (.inr hid)
  kind {id} hid := by
    by_cases hidl : id = leaf
    · rw [hidl, s.moved]
    · obtain ⟨children, hnode, -⟩ := s.other (s.ne_of_live hid) hidl
      rw [hnode]
  ledger {id} hid := by
    by_cases hidl : id = leaf
    · rw [hidl, s.moved]
    · obtain ⟨children, hnode, -⟩ := s.other (s.ne_of_live hid) hidl
      rw [hnode]

theorem path (s : Splits t leaf c t') (hx : t.Live x) (hxl : x ≠ leaf) :
    (t'.node x).path = (t.node x).path := by
  obtain ⟨children, hnode, -⟩ := s.other (s.ne_of_live hx) hxl
  rw [hnode]

theorem clientOf (h : t.Linked []) (hleaf : (t.node leaf).kind.isLeaf)
    (hname : (t.node leaf).name ≠ RolePath.ownLeaf) (s : Splits t leaf c t') (hx : t.Live x) :
    t'.clientOf x = t.clientOf x := by
  by_cases hxl : x = leaf
  · subst hxl
    rw [clientOf_of_parent (p := c) (by rw [s.moved]) (by rw [s.moved]), s.new,
      clientOf_of_name_ne hname]
    rfl
  · obtain ⟨children, hnode, -⟩ := s.other (s.ne_of_live hx) hxl
    refine clientOf_congr (by rw [hnode]) (by rw [hnode]) (by rw [hnode]) fun q hq => ?_
    exact s.path (h.parent_live hx hq) (ne_of_isLeaf hleaf (h.parent_internal hx hq)).symm

theorem registered (h : t.Linked []) (hleaf : (t.node leaf).kind.isLeaf)
    (hname : (t.node leaf).name ≠ RolePath.ownLeaf) (s : Splits t leaf c t')
    (hr : t.Registered []) : t'.Registered [] := by
  intro client id
  rw [client?_congr s.clients, hr, s.live]
  by_cases hid : id = c
  · subst hid
    simp [s.fresh, s.new, bareNode, NodeKind.isLeaf]
  · by_cases hlive : t.Live id
    · simp [hid, hlive, s.clientOf h hleaf hname hlive, s.keeps.kind hlive]
    · simp [hid, hlive]

theorem child_name (h : t.Linked []) (s : Splits t leaf c t') (hx : t.Live x) (hxl : x ≠ leaf)
    {d : NodeId} (hd : d ∈ (t.node x).children) :
    ∃ e ∈ (t'.node x).children, (t'.node e).name = (t.node d).name := by
  obtain ⟨children, hnode, hmem⟩ := s.other (s.ne_of_live hx) hxl
  rw [hnode]
  by_cases hdl : d = leaf
  · subst hdl
    exact ⟨c, (hmem c).mpr (.inl ⟨rfl, hd⟩), by rw [s.new]; rfl⟩
  · refine ⟨d, (hmem d).mpr (.inr ⟨hdl, hd⟩), ?_⟩
    obtain ⟨_, hnoded, -⟩ := s.other (s.ne_of_live (h.down hd).1) hdl
    rw [hnoded]

theorem branching (h : t.Linked []) (hleaf : (t.node leaf).kind.isLeaf) (s : Splits t leaf c t')
    (hb : t.Branching []) : t'.Branching [c] := by
  intro id hid hkind hroot hnot
  rw [s.top] at hroot
  rw [List.mem_singleton] at hnot
  have hlive : t.Live id := ((s.live id).mp hid).resolve_left hnot
  rw [s.keeps.kind hlive] at hkind
  have hidl : id ≠ leaf := (ne_of_isLeaf hleaf hkind).symm
  obtain ⟨d, hd, hname⟩ := hb id hlive hkind hroot List.not_mem_nil
  obtain ⟨e, he, hename⟩ := s.child_name h hlive hidl hd
  exact ⟨e, he, hename ▸ hname⟩

end Splits

/-! ## Nodes that turn, drop and fold -/

namespace Turns

variable {kind : NodeKind} {ledger : Ledger α}

theorem node_eq (s : Turns t x kind ledger t') (id : NodeId) :
    (t'.node id).name = (t.node id).name ∧ (t'.node id).path = (t.node id).path ∧
      (t'.node id).parent = (t.node id).parent := by
  by_cases hid : id = x
  · rw [hid, s.self]
    exact ⟨rfl, rfl, rfl⟩
  · obtain ⟨children, -, hnode⟩ := s.other hid
    rw [hnode]
    exact ⟨rfl, rfl, rfl⟩

theorem clientOf (s : Turns t x kind ledger t') (id : NodeId) : t'.clientOf id = t.clientOf id :=
  clientOf_congr (s.node_eq id).1 (s.node_eq id).2.1 (s.node_eq id).2.2
    fun q _ => (s.node_eq q).2.1

theorem kind_ne (s : Turns t x kind ledger t') {id : NodeId} (hid : id ≠ x) :
    (t'.node id).kind = (t.node id).kind := by
  obtain ⟨children, -, hnode⟩ := s.other hid
  rw [hnode]

theorem ledger_ne (s : Turns t x kind ledger t') {id : NodeId} (hid : id ≠ x) :
    (t'.node id).ledger = (t.node id).ledger := by
  obtain ⟨children, -, hnode⟩ := s.other hid
  rw [hnode]

theorem mem_children (s : Turns t x kind ledger t') {id d : NodeId} :
    d ∈ (t'.node id).children ↔ d ∈ (t.node id).children := by
  by_cases hid : id = x
  · rw [hid, s.self]
  · obtain ⟨children, hperm, hnode⟩ := s.other hid
    rw [hnode]
    exact hperm.mem_iff

theorem branching (s : Turns t x kind ledger t') (hkind : kind.isLeaf) (hb : t.Branching out)
    (hout : ∀ id ∈ out, id = x) : t'.Branching [] := by
  intro id hid hidkind hroot _
  rw [s.top] at hroot
  have hidx : id ≠ x := by
    intro he
    subst he
    rw [s.self] at hidkind
    exact isLeaf_iff.mp hkind hidkind
  rw [s.kind_ne hidx] at hidkind
  obtain ⟨d, hd, hname⟩ := hb id ((s.live id).mp hid) hidkind hroot fun hmem => hidx (hout id hmem)
  exact ⟨d, s.mem_children.mpr hd, by rwa [(s.node_eq d).1]⟩

theorem registered (s : Turns t x kind ledger t') (hkind : kind.isLeaf) (hr : t.Registered [])
    (hleaf : (t.node x).kind.isLeaf) : t'.Registered [] := by
  intro client id
  rw [client?_congr s.clients, hr, s.live, s.clientOf]
  by_cases hid : id = x
  · simp [hid, s.self, hkind, hleaf]
  · rw [s.kind_ne hid]

theorem registered_new (s : Turns t x kind ledger t') (hr : t.Registered [])
    (hinternal : (t.node x).kind = .internal) : t'.Registered [x] := by
  intro client id
  rw [client?_congr s.clients, hr, s.live, s.clientOf]
  by_cases hid : id = x
  · simp [hid, hinternal, NodeKind.isLeaf]
  · simp [s.kind_ne hid, hid]

end Turns

theorem Branching.mono {out' : List NodeId} (h : t.Branching out) (hsub : ∀ id ∈ out, id ∈ out') :
    t.Branching out' :=
  fun id hid hkind hroot hnot => h id hid hkind hroot fun hmem => hnot (hsub id hmem)

theorem Registered.of_internal (h : t.Registered []) (hx : (t.node x).kind = .internal) :
    t.Registered [x] := by
  intro client id
  rw [h]
  by_cases hid : id = x
  · simp [hid, hx, NodeKind.isLeaf]
  · simp [hid]

namespace Drops

theorem clientOf (h : t.Linked []) (hchildren : (t.node x).children = []) (s : Drops t x t')
    {id : NodeId} (hid : id ≠ x) (hlive : t.Live id) : t'.clientOf id = t.clientOf id := by
  have hnode := s.node hid
  refine clientOf_congr (by rw [hnode]) (by rw [hnode]) (by rw [hnode]) fun q hq => ?_
  have hmem := h.mem_children_of_parent hlive hq
  rw [s.node (ne_of_childless hchildren hmem)]

theorem registered (h : t.Linked []) (hchildren : (t.node x).children = []) (s : Drops t x t')
    (hr : t.Registered [x]) : t'.Registered [] := by
  intro client id
  rw [client?_congr s.clients, hr, s.live]
  by_cases hid : id = x
  · simp [hid]
  · rw [s.node hid]
    by_cases hlive : t.Live id
    · simp [hid, hlive, s.clientOf h hchildren hid hlive]
    · simp [hid, hlive]

theorem branching (h : t.Linked []) (hparent : (t.node x).parent = some p) (s : Drops t x t')
    (hb : t.Branching [x]) : t'.Branching [p] := by
  intro id hid hkind hroot hnot
  rw [s.top] at hroot
  obtain ⟨hidx, hlive⟩ := (s.live id).mp hid
  rw [s.node hidx] at hkind
  obtain ⟨d, hd, hname⟩ := hb id hlive hkind hroot (by simpa using hidx)
  have hdx : d ≠ x := by
    intro he
    subst he
    rw [(h.down hd).2.2.1] at hparent
    exact hnot (by simpa using hparent)
  refine ⟨d, ?_, by rwa [s.node hdx]⟩
  rw [s.node hidx]
  simp [hd, hdx]

end Drops

namespace Folds

variable {own : NodeId}

theorem node_eq (s : Folds t x own t') {id : NodeId} (hid : id ≠ own) :
    (t'.node id).name = (t.node id).name ∧ (t'.node id).path = (t.node id).path ∧
      (t'.node id).parent = (t.node id).parent := by
  by_cases hidx : id = x
  · rw [hidx, s.self]
    exact ⟨rfl, rfl, rfl⟩
  · obtain ⟨children, -, hnode⟩ := s.other hidx hid
    rw [hnode]
    exact ⟨rfl, rfl, rfl⟩

theorem clientOf (h : t.Linked []) (hown : (t.node own).kind.isLeaf) (s : Folds t x own t')
    {id : NodeId} (hid : id ≠ own) (hlive : t.Live id) : t'.clientOf id = t.clientOf id := by
  obtain ⟨hname, hpath, hparent⟩ := s.node_eq hid
  refine clientOf_congr hname hpath hparent fun q hq => ?_
  have hqown : q ≠ own := (ne_of_isLeaf hown (h.parent_internal hlive hq)).symm
  exact (s.node_eq hqown).2.1

theorem branching (hown : (t.node own).kind.isLeaf) (hname : (t.node own).name = RolePath.ownLeaf)
    (s : Folds t x own t') (hb : t.Branching [x]) : t'.Branching [] := by
  intro id hid hkind hroot _
  rw [s.top] at hroot
  obtain ⟨hidown, hlive⟩ := (s.live id).mp hid
  have hidx : id ≠ x := by
    intro he
    subst he
    rw [s.self] at hkind
    exact isLeaf_iff.mp hown hkind
  obtain ⟨children, hperm, hnode⟩ := s.other hidx hidown
  rw [hnode] at hkind ⊢
  obtain ⟨d, hd, hdname⟩ := hb id hlive hkind hroot (by simpa using hidx)
  have hdown : d ≠ own := by
    intro he
    subst he
    exact hdname hname
  exact ⟨d, hperm.mem_iff.mpr hd, by rwa [(s.node_eq hdown).1]⟩

theorem registered (h : t.Linked []) (hmem : own ∈ (t.node x).children)
    (hname : (t.node own).name = RolePath.ownLeaf) (hxname : (t.node x).name ≠ RolePath.ownLeaf)
    (s : Folds t x own t') (hr : t.Registered []) : t'.Registered [] := by
  obtain ⟨hownlive, -, hownparent, -⟩ := h.down hmem
  have hownleaf := (h.own hownlive hname).1
  have hxown : x ≠ own := Ne.symm (h.child_ne_parent hmem)
  have hxlive := live_of_mem_children hmem
  have hxinternal : ¬ (t.node x).kind.isLeaf := by simp [isLeaf_iff, h.kind_of_child hmem]
  have hxclient : t'.clientOf x = (t.node x).path := by
    rw [s.clientOf h hownleaf hxown hxlive, clientOf_of_name_ne hxname]
  have hownclient := (hr (t.node x).path own).mpr
    ⟨hownlive, List.not_mem_nil, hownleaf, clientOf_of_parent hownparent hname⟩
  intro client id
  rw [client?, s.clients, Table.get?_insert, ← client?, s.live]
  by_cases hidx : id = x
  · subst hidx
    have hnone : t.client? client ≠ some id := fun hc => hxinternal ((hr client id).mp hc).2.2.1
    by_cases hc : (t.node id).path = client
    · simp [hc, hxown, hxlive, hxclient, s.self, hownleaf]
    · simp [hc, hnone, hxclient]
  · by_cases hc : (t.node x).path = client
    · rw [if_pos hc]
      refine iff_of_false (by simpa using Ne.symm hidx) ?_
      rintro ⟨⟨hidown, hlive⟩, -, hleaf, hclient⟩
      obtain ⟨_, -, hnode⟩ := s.other hidx hidown
      rw [s.clientOf h hownleaf hidown hlive, ← hc] at hclient
      rw [hnode] at hleaf
      have hid := (hr (t.node x).path id).mpr ⟨hlive, List.not_mem_nil, hleaf, hclient⟩
      exact hidown (Option.some.inj (hid.symm.trans hownclient))
    · rw [if_neg hc, hr]
      by_cases hidown : id = own
      · subst hidown
        rw [clientOf_of_parent hownparent hname]
        simp [hc]
      · by_cases hlive : t.Live id
        · obtain ⟨_, -, hnode⟩ := s.other hidx hidown
          rw [s.clientOf h hownleaf hidown hlive, hnode]
          simp [hidown, hlive]
        · simp [hlive]

end Folds

end RoleLottery.RoleTree
