import RoleLottery.Proofs.RoleTree.Accounts
import RoleLottery.Proofs.RoleTree.Lineage

/-!
# Removing clients

On the way up from a removed leaf each role is dropped when nothing is left below it, and becomes a
leaf again when only its own client is left. Above the first role that branches, nothing changes.
-/

namespace RoleLottery.RoleTree

variable {α ω : Type} {t t' : RoleTree α ω} {x p : NodeId} {client : String}

/-! ## A step of tidying -/

theorem tidy_of_branch (h : ∃ c ∈ (t.node x).children, (t.node c).name ≠ RolePath.ownLeaf) :
    t.tidy x = t := by
  obtain ⟨c, hc, hname⟩ := h
  unfold tidy
  split
  · rename_i hnil
    simp [hnil] at hc
  · rename_i child hone
    rw [hone, List.mem_singleton] at hc
    subst hc
    rw [if_neg hname]
  · rfl

theorem Linked.children_of_not_branch (h : t.Linked [])
    (hx : ¬ ∃ c ∈ (t.node x).children, (t.node c).name ≠ RolePath.ownLeaf) :
    (t.node x).children = [] ∨
      ∃ own, (t.node x).children = [own] ∧ (t.node own).name = RolePath.ownLeaf := by
  simp only [not_exists, not_and, not_not] at hx
  cases hchildren : (t.node x).children with
  | nil => exact .inl rfl
  | cons c rest =>
    rw [hchildren] at hx
    refine .inr ⟨c, ?_, hx c List.mem_cons_self⟩
    cases rest with
    | nil => rfl
    | cons d rest =>
      have hc : c ∈ (t.node x).children := by simp [hchildren]
      have hd : d ∈ (t.node x).children := by simp [hchildren]
      have hcd := h.eq_of_name_eq hc hd ((hx c (by simp)).trans (hx d (by simp)).symm)
      have hnodup := h.nodup_children x
      rw [hchildren, hcd] at hnodup
      simp at hnodup

/-- Tidying the node `x` leaves a tree in which only its parent `p` may lack branches. -/
structure Tidies (t : RoleTree α ω) (x p : NodeId) (t' : RoleTree α ω) : Prop where
  parent : (t.node x).parent = some p
  top : t'.top = t.top
  size : t'.slots.size = t.slots.size
  linked : t'.Linked []
  branching : t'.Branching [p]
  registered : t'.Registered []
  live : t'.Live p
  internal : (t'.node p).kind = .internal
  path : (t'.node p).path = (t.node p).path
  account? : ∀ client, t'.account? client = t.account? client
  kept : ∀ {q c}, q ≠ x → c ≠ x → c ∈ (t.node q).children → c ∈ (t'.node q).children

theorem Linked.tidy_childless (h : t.Linked []) (hb : t.Branching [x]) (hr : t.Registered [x])
    (hx : t.Live x) (hroot : x ≠ t.top) (hchildren : (t.node x).children = []) :
    ∃ p, Tidies t x p (t.tidy x) := by
  obtain ⟨p, hparent, hmem⟩ := h.up hx hroot List.not_mem_nil
  obtain ⟨hl, d⟩ := h.drop hx hroot hchildren
  have hpx : p ≠ x := Ne.symm (h.child_ne_parent hmem)
  have htidy : t.tidy x = (t.unlist x).vacate x := by
    unfold RoleTree.tidy
    rw [hchildren]
  rw [htidy]
  refine ⟨p, ?_⟩
  constructor
  case parent => exact hparent
  case top => exact d.top
  case size => exact d.size
  case linked => exact hl
  case branching => exact d.branching h hparent hb
  case registered => exact d.registered h hchildren hr
  case live => exact (d.live p).mpr ⟨hpx, live_of_mem_children hmem⟩
  case internal =>
    rw [d.node hpx]
    exact h.kind_of_child hmem
  case path => rw [d.node hpx]
  case account? => exact d.account? hr
  case kept =>
    intro q c hq hc hmem
    rw [d.node hq]
    exact List.mem_filter.mpr ⟨hmem, by simpa using hc⟩

theorem Linked.tidy_own (h : t.Linked []) (hb : t.Branching [x]) (hr : t.Registered [])
    (hx : t.Live x) (hroot : x ≠ t.top) {own : NodeId} (hchildren : (t.node x).children = [own])
    (hown : (t.node own).name = RolePath.ownLeaf) : ∃ p, Tidies t x p (t.tidy x) := by
  obtain ⟨p, hparent, hmem⟩ := h.up hx hroot List.not_mem_nil
  have hownmem : own ∈ (t.node x).children := by simp [hchildren]
  have hownleaf := (h.own (h.down hownmem).1 hown).1
  have hname : (t.node x).name ≠ RolePath.ownLeaf := by
    intro he
    exact isLeaf_iff.mp (h.own hx he).1 (h.kind_of_child hownmem)
  have hpx : p ≠ x := Ne.symm (h.child_ne_parent hmem)
  have hpown : p ≠ own := (ne_of_isLeaf hownleaf (h.kind_of_child hmem)).symm
  obtain ⟨hl, f⟩ := h.foldBack hroot hchildren hown
  obtain ⟨_, -, hnode⟩ := f.other hpx hpown
  have htidy : t.tidy x = t.foldBack x own := by
    unfold RoleTree.tidy
    rw [hchildren]
    simp only [hown, if_true]
  rw [htidy]
  refine ⟨p, ?_⟩
  constructor
  case parent => exact hparent
  case top => exact f.top
  case size => exact f.size
  case linked => exact hl
  case branching => exact (f.branching hownleaf hown hb).mono (by simp)
  case registered => exact f.registered h hownmem hown hname hr
  case live => exact (f.live p).mpr ⟨hpown, live_of_mem_children hmem⟩
  case internal =>
    rw [hnode]
    exact h.kind_of_child hmem
  case path => rw [hnode]
  case account? => exact f.account? h hr hownmem hown
  case kept =>
    intro q c hq _ hmem
    obtain ⟨children, hperm, hqnode⟩ := f.other hq (ne_of_childless (h.leaf hownleaf) hmem)
    rw [hqnode]
    exact hperm.mem_iff.mpr hmem

theorem Linked.tidy_role (h : t.Linked []) (hb : t.Branching [x]) (hr : t.Registered [])
    (hx : t.Live x) (hroot : x ≠ t.top) (hkind : (t.node x).kind = .internal) :
    ∃ p, Tidies t x p (t.tidy x) := by
  by_cases hbranch : ∃ c ∈ (t.node x).children, (t.node c).name ≠ RolePath.ownLeaf
  · obtain ⟨p, hparent, hmem⟩ := h.up hx hroot List.not_mem_nil
    have hb' : t.Branching [] := by
      intro id hid hidkind hidroot _
      by_cases hidx : id = x
      · exact hidx ▸ hbranch
      · exact hb id hid hidkind hidroot (by simpa using hidx)
    rw [tidy_of_branch hbranch]
    exact ⟨p, hparent, rfl, rfl, h, hb'.mono (by simp), hr, live_of_mem_children hmem,
      h.kind_of_child hmem, rfl, fun _ => rfl, fun _ _ hc => hc⟩
  · rcases h.children_of_not_branch hbranch with hchildren | ⟨own, hchildren, hown⟩
    · exact h.tidy_childless hb (hr.of_internal hkind) hx hroot hchildren
    · exact h.tidy_own hb hr hx hroot hchildren hown

/-! ## The way up -/

theorem Branching.of_root (hb : t.Branching [t.top]) : t.Branching [] := by
  intro id hid hkind hroot _
  exact hb id hid hkind hroot (by simpa using hroot)

theorem Linked.eq_root_of_depth (h : t.Linked []) (hx : t.Live x)
    (hdepth : RolePath.depth (t.node x).path = 0) : x = t.top := by
  by_contra hroot
  obtain ⟨p, -, hmem⟩ := h.up hx hroot List.not_mem_nil
  have hchild := h.depth_child hmem
  omega

theorem Tidies.depth_le (s : Tidies t x p t') (h : t.Linked []) (hx : t.Live x) {steps : Nat}
    (hsteps : RolePath.depth (t.node x).path ≤ steps + 1) :
    RolePath.depth (t'.node p).path ≤ steps := by
  have hchild := h.depth_child (h.mem_children_of_parent hx s.parent)
  rw [s.path]
  omega

/-- Only the role `x` may lack branches; tidying from there leaves a sound tree. -/
theorem Linked.tidyUp (h : t.Linked []) (hb : t.Branching [x]) (hr : t.Registered [])
    (hx : t.Live x) (hkind : (t.node x).kind = .internal) (steps : Nat)
    (hsteps : RolePath.depth (t.node x).path ≤ steps) :
    (t.tidyUp steps x).Sound ∧
      ∀ client, (t.tidyUp steps x).account? client = t.account? client := by
  induction steps generalizing t x with
  | zero =>
    obtain rfl := h.eq_root_of_depth hx (Nat.le_zero.mp hsteps)
    exact ⟨⟨h, hb.of_root, hr⟩, fun _ => rfl⟩
  | succ steps ih =>
    simp only [RoleTree.tidyUp]
    split
    · rename_i hroot
      subst hroot
      exact ⟨⟨h, hb.of_root, hr⟩, fun _ => rfl⟩
    · rename_i hroot
      obtain ⟨p, s⟩ := h.tidy_role hb hr hx hroot hkind
      rw [s.parent]
      obtain ⟨hs, haccount⟩ := ih s.linked s.branching s.registered s.live s.internal
        (s.depth_le h hx hsteps)
      exact ⟨hs, fun client => (haccount client).trans (s.account? client)⟩

/-! ## Removing clients -/

theorem Registered.erase (hr : t.Registered []) (hx : t.client? client = some x) :
    { t with clients := t.clients.erase client }.Registered [x] := by
  intro other id
  have hother := hr other id
  rw [client?, Table.get?_erase]
  change _ ↔ t.Live id ∧ id ∉ [x] ∧ (t.node id).kind.isLeaf ∧ t.clientOf id = other
  have hxclient := ((hr client x).mp hx).2.2.2
  split
  · rename_i he
    subst he
    refine iff_of_false (by simp) ?_
    rintro ⟨hlive, hid, hleaf, hclient⟩
    have hidx := (hr client id).mpr ⟨hlive, List.not_mem_nil, hleaf, hclient⟩
    rw [hx] at hidx
    exact hid (by simpa using (Option.some.inj hidx).symm)
  · rename_i he
    change t.client? other = some id ↔ _
    rw [hother]
    by_cases hid : id = x
    · subst hid
      simp [hxclient, he]
    · simp [hid]

theorem remove_eq_error (hclient : t.account? client = none) :
    t.remove client = .error (.unknown client) := by
  simp [remove, account?_eq_none_iff.mp hclient]

/-- The tree without the entry of a client, whose leaf holds nothing any more. -/
def strikeOut (t : RoleTree α ω) (client : String) (leaf : NodeId) : RoleTree α ω :=
  { t with clients := t.clients.erase client }.modify leaf fun n => { n with ledger := {} }

theorem SameLinks.strikeOut (t : RoleTree α ω) (client : String) (x : NodeId) :
    SameLinks t (t.strikeOut client x) := by
  have s : SameLinks t { t with clients := t.clients.erase client } :=
    ⟨rfl, rfl, rfl, fun _ => Iff.rfl, (SameLinks.refl t).node⟩
  exact s.trans (SameLinks.modify _ x fun n => ⟨n.weight, {}, rfl⟩)

/-- The leaf `x` is still there, but is the leaf of no client. -/
structure Loose (t : RoleTree α ω) (x : NodeId) : Prop where
  linked : t.Linked []
  branching : t.Branching [x]
  registered : t.Registered [x]
  live : t.Live x
  ne_root : x ≠ t.top
  childless : (t.node x).children = []

theorem Sound.strikeOut (h : t.Sound) (hx : t.client? client = some x) :
    Loose (t.strikeOut client x) x := by
  obtain ⟨hlive, -, hleaf, -⟩ := (h.registered client x).mp hx
  have s := SameLinks.strikeOut t client x
  constructor
  case linked => exact s.linked h.linked
  case branching => exact (s.branching h.branching).mono (by simp)
  case registered =>
    have hr := h.registered.erase hx
    exact (SameLinks.modify _ x fun n => ⟨n.weight, {}, rfl⟩).registered rfl hr
  case live => exact (s.live x).mpr hlive
  case ne_root => exact h.linked.ne_root_of_leaf hleaf
  case childless => exact (s.children x).trans (h.linked.leaf hleaf)

theorem Sound.account?_strikeOut (h : t.Sound) (hx : t.client? client = some x) (other : String) :
    (t.strikeOut client x).account? other = if client = other then none else t.account? other := by
  have hclient : (t.strikeOut client x).client? other =
      if client = other then none else t.client? other := t.clients.get?_erase client other
  by_cases hother : client = other
  · rw [if_pos hother] at hclient ⊢
    rw [account?, hclient, Option.map_none]
  · rw [if_neg hother] at hclient ⊢
    have hnode {id : NodeId} (hid : t.client? other = some id) :
        (t.strikeOut client x).node id = t.node id :=
      node_modify_ne _ _ _ (h.registered.ne_of_client_ne hx hid hother)
    exact account?_congr hclient (fun id hid => by rw [hnode hid]) (fun id hid => by rw [hnode hid])

theorem Loose.exists_step (l : Loose t x) : ∃ p steps, Tidies t x p (t.tidy x) ∧
    t.slots.size = steps + 1 ∧ t.tidyUp t.slots.size x = (t.tidy x).tidyUp steps p ∧
    RolePath.depth ((t.tidy x).node p).path ≤ steps := by
  obtain ⟨p, s⟩ := l.linked.tidy_childless l.branching l.registered l.live l.ne_root l.childless
  have hdepth := l.linked.depth_lt_size l.live
  obtain ⟨steps, hsize⟩ := Nat.exists_eq_succ_of_ne_zero (Nat.ne_zero_of_lt hdepth)
  refine ⟨p, steps, s, hsize, ?_, s.depth_le l.linked l.live (by omega)⟩
  rw [hsize, RoleTree.tidyUp, if_neg l.ne_root, s.parent]

theorem Loose.tidyUp (l : Loose t x) :
    (t.tidyUp t.slots.size x).Sound ∧
      ∀ client, (t.tidyUp t.slots.size x).account? client = t.account? client := by
  obtain ⟨p, steps, s, -, hfirst, hsteps⟩ := l.exists_step
  rw [hfirst]
  obtain ⟨hs, haccount⟩ := s.linked.tidyUp s.branching s.registered s.live s.internal steps hsteps
  exact ⟨hs, fun client => (haccount client).trans (s.account? client)⟩

theorem Sound.remove_eq_ok (h : t.Sound) {a : Account α} (hclient : t.account? client = some a) :
    ∃ t', t.remove client = .ok (t', a.ledger) ∧ t'.Sound ∧ ∀ other,
      t'.account? other = if client = other then none else t.account? other := by
  obtain ⟨x, hx, rfl⟩ := account?_eq_some_iff.mp hclient
  obtain ⟨hs, haccount⟩ := (h.strikeOut hx).tidyUp
  refine ⟨_, ?_, hs, fun other => ?_⟩
  · unfold RoleTree.remove
    rw [hx]
    rfl
  · rw [haccount, h.account?_strikeOut hx]

end RoleLottery.RoleTree
