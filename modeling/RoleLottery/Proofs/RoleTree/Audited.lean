import Mathlib.Algebra.Ring.Nat
import Mathlib.Data.Set.Function
import RoleLottery.Proofs.RoleTree.History
import RoleLottery.Proofs.RoleTree.Walks
import RoleLottery.RoleTree.Audit

/-!
# Trees that pass the audit

The audit passes a tree iff each node that it meets is as it should be and there are as many leaves
as clients. So it finds no breach in a sound tree. Nor is a tree far from sound when it passes,
whatever came before: as children link back to their parents, no node can be met twice, and as there
are no more clients than leaves, every client has a leaf.
-/

namespace RoleLottery.RoleTree

variable {α ω : Type} {t : RoleTree α ω} {x y p c : NodeId} {ids : List NodeId}

/-! ## The audit, node by node -/

def LinksTo (t : RoleTree α ω) (p c : NodeId) : Prop :=
  t.Live c ∧ (t.node c).parent = some p ∧
    (t.node c).path = RolePath.join (t.node p).path (t.node c).name

/-- What the audit asks of each node that it meets. -/
structure Admitted (t : RoleTree α ω) (x : NodeId) : Prop where
  leaf : (t.node x).kind.isLeaf →
    (t.node x).children = [] ∧ t.client? (t.clientOf x) = some x
  role : ¬ (t.node x).kind.isLeaf → x ≠ t.top → (t.node x).children ≠ []
  links : ∀ c ∈ (t.node x).children, t.LinksTo x c
  ordered : (t.node x).children.Pairwise fun c d =>
    (t.node c).kind = .inactive → (t.node d).kind = .inactive

theorem auditNode_eq_ok_iff : t.auditNode x = .ok () ↔
    ((t.node x).kind.isLeaf →
      (t.node x).children = [] ∧ t.client? (t.clientOf x) = some x) ∧
    (¬ (t.node x).kind.isLeaf → x ≠ t.top → (t.node x).children ≠ []) := by
  unfold auditNode
  by_cases hleaf : (t.node x).kind.isLeaf
  · by_cases hchildren : (t.node x).children = [] <;>
      by_cases hclient : t.client? (t.clientOf x) = some x <;> simp [hleaf, hchildren, hclient]
  · by_cases hchildren : (t.node x).children = [] <;> simp [hleaf, hchildren]

theorem auditLinks_eq_ok_iff {inactive : Bool} : t.auditLinks p inactive ids = .ok () ↔
    (∀ c ∈ ids, t.LinksTo p c) ∧
    (ids.Pairwise fun c d => (t.node c).kind = .inactive → (t.node d).kind = .inactive) ∧
    (inactive = true → ∀ c ∈ ids, (t.node c).kind = .inactive) := by
  induction ids generalizing inactive with
  | nil => simp [auditLinks]
  | cons c ids ih =>
    rw [List.forall_mem_cons, List.pairwise_cons, List.forall_mem_cons, auditLinks]
    by_cases hlive : t.Live c
    · rw [node?_of_live hlive]
      dsimp only
      by_cases hparent : (t.node c).parent = some p
      · by_cases hpath : (t.node c).path = RolePath.join (t.node p).path (t.node c).name
        · rw [if_neg (not_not_intro hparent), if_neg (not_not_intro hpath)]
          have hlinks : t.LinksTo p c := ⟨hlive, hparent, hpath⟩
          by_cases hkind : (t.node c).kind = .inactive
          · rw [if_pos hkind, ih]
            simp only [hlinks, hkind, true_and, forall_const]
            tauto
          · rw [if_neg hkind]
            cases inactive with
            | true => simp [hkind]
            | false =>
              rw [if_neg Bool.false_ne_true, ih]
              simp [hlinks, hkind]
        · rw [if_neg (not_not_intro hparent), if_pos hpath]
          simp [LinksTo, hpath]
      · rw [if_pos hparent]
        simp [LinksTo, hparent]
    · rw [show t.node? c = none by simpa [Live] using hlive]
      simp [LinksTo, hlive]

theorem admitted_iff : t.auditNode x = .ok () ∧
    t.auditLinks x false (t.node x).children = .ok () ↔ t.Admitted x := by
  rw [auditNode_eq_ok_iff, auditLinks_eq_ok_iff]
  constructor
  · rintro ⟨⟨hleaf, hrole⟩, hlinks, hordered, -⟩
    exact ⟨hleaf, hrole, hlinks, hordered⟩
  · intro h
    exact ⟨⟨h.leaf, h.role⟩, h.links, h.ordered, by simp⟩

theorem bind_eq_ok_iff {ε β γ : Type} {r : Except ε β} {f : β → Except ε γ} {b : γ} :
    (r >>= f) = .ok b ↔ ∃ a, r = .ok a ∧ f a = .ok b := by
  cases r with
  | error e => simp [bind, Except.bind]
  | ok a => simp [bind, Except.bind]

private theorem foldlM_add_eq_ok_iff {ε : Type} {f : NodeId → Except ε Nat} {P : NodeId → Prop}
    {g : NodeId → Nat} (hf : ∀ c n, f c = .ok n ↔ P c ∧ n = g c) {init n : Nat} :
    ids.foldlM (fun leaves c => do return leaves + (← f c)) init = .ok n ↔
      (∀ c ∈ ids, P c) ∧ n = init + (ids.map g).sum := by
  induction ids generalizing init with
  | nil => simp [pure, Except.pure, eq_comm]
  | cons c ids ih =>
    simp only [List.foldlM_cons, List.forall_mem_cons, List.map_cons, List.sum_cons,
      bind_eq_ok_iff, ih, hf]
    constructor
    · rintro ⟨_, ⟨_, ⟨hP, rfl⟩, hsum⟩, hrest, rfl⟩
      cases hsum
      exact ⟨⟨hP, hrest⟩, Nat.add_assoc _ _ _⟩
    · rintro ⟨⟨hP, hrest⟩, rfl⟩
      exact ⟨_, ⟨_, ⟨hP, rfl⟩, rfl⟩, hrest, (Nat.add_assoc _ _ _).symm⟩

/-- The audit passes the nodes that are as they should be, and counts their leaves. -/
theorem auditWithin_eq_ok_iff {depth n : Nat} : t.auditWithin depth x = .ok n ↔
    (∀ y ∈ t.within depth x, t.Admitted y) ∧
      n = (t.within depth x).countP fun y => (t.node y).kind.isLeaf := by
  induction depth generalizing x n with
  | zero => simp [auditWithin, within, eq_comm]
  | succ depth ih =>
    have hcount : (t.within (depth + 1) x).countP (fun y => (t.node y).kind.isLeaf) =
        (if (t.node x).kind.isLeaf then 1 else 0) + ((t.node x).children.reverse.map fun c =>
          (t.within depth c).countP fun y => (t.node y).kind.isLeaf).sum := by
      rw [List.map_reverse, List.sum_reverse, within, List.countP_cons, List.countP_flatMap,
        Nat.add_comm]
      rfl
    rw [hcount, within, List.forall_mem_cons, ← admitted_iff, auditWithin]
    simp only [bind_eq_ok_iff, foldlM_add_eq_ok_iff fun c n => ih, List.mem_reverse,
      List.forall_mem_flatMap]
    constructor
    · rintro ⟨⟨⟩, hnode, ⟨⟩, hlinks, hbelow, rfl⟩
      exact ⟨⟨⟨hnode, hlinks⟩, hbelow⟩, rfl⟩
    · rintro ⟨⟨⟨hnode, hlinks⟩, hbelow⟩, rfl⟩
      exact ⟨(), hnode, (), hlinks, hbelow, rfl⟩

theorem audit_eq_ok_iff : t.audit = .ok () ↔ ¬ (t.node t.top).kind.isLeaf ∧
    (∀ y ∈ t.within t.slots.size t.top, t.Admitted y) ∧
    (t.within t.slots.size t.top).countP (fun y => (t.node y).kind.isLeaf) = t.clients.size := by
  unfold audit
  by_cases hroot : (t.node t.top).kind.isLeaf
  · rw [if_pos hroot]
    exact iff_of_false (fun hok => nomatch hok) fun hsound => hsound.1 hroot
  · rw [if_neg hroot, and_iff_right hroot]
    simp only [bind_eq_ok_iff, auditWithin_eq_ok_iff]
    constructor
    · rintro ⟨leaves, ⟨hadmitted, rfl⟩, hcount⟩
      refine ⟨hadmitted, ?_⟩
      by_contra hne
      rw [if_pos hne] at hcount
      cases hcount
    · rintro ⟨hadmitted, hcount⟩
      exact ⟨_, ⟨hadmitted, rfl⟩, if_neg (not_not_intro hcount)⟩

theorem Sound.admitted (h : t.Sound) (hx : t.Live x) : t.Admitted x where
  leaf hleaf := ⟨h.linked.leaf hleaf, h.client?_clientOf hx hleaf⟩
  role hleaf hroot := by
    have hkind : (t.node x).kind = .internal := by
      simpa [isLeaf_iff] using hleaf
    obtain ⟨c, hc, -⟩ := h.branching x hx hkind hroot List.not_mem_nil
    exact List.ne_nil_of_mem hc
  links c hc := by
    obtain ⟨hlive, -, hparent, hpath⟩ := h.linked.down hc
    exact ⟨hlive, hparent, hpath⟩
  ordered := h.linked.ordered x

theorem Sound.countP_leaves (h : t.Sound) :
    (t.within t.slots.size t.top).countP (fun y => (t.node y).kind.isLeaf) = t.clients.size := by
  have hvalues : t.clients.values.Nodup := by
    have hentries : t.clients.entries.Nodup := List.Nodup.of_map _ t.clients.nodup_keys
    apply hentries.map_on
    intro e he f hf heq
    have heclient := ((h.registered e.1 e.2).mp ((t.clients.get?_eq_some_iff e.1 e.2).mpr he)).2.2.2
    have hfclient := ((h.registered f.1 f.2).mp ((t.clients.get?_eq_some_iff f.1 f.2).mpr hf)).2.2.2
    rw [heq, hfclient] at heclient
    exact Prod.ext heclient.symm heq
  have hleaves := (h.linked.rooted.nodup_within .root t.slots.size).filter
    fun y => (t.node y).kind.isLeaf
  have hperm : ((t.within t.slots.size t.top).filter fun y => (t.node y).kind.isLeaf).Perm
      t.clients.values := by
    apply (List.perm_ext_iff_of_nodup hleaves hvalues).mpr
    intro y
    rw [List.mem_filter, h.linked.mem_within_iff, Table.mem_values]
    constructor
    · rintro ⟨hy, hleaf⟩
      exact ⟨_, h.client?_clientOf hy hleaf⟩
    · rintro ⟨client, hclient⟩
      obtain ⟨hy, -, hleaf, -⟩ := (h.registered client y).mp hclient
      exact ⟨hy, hleaf⟩
  rw [List.countP_eq_length_filter, hperm.length_eq, Table.values, List.length_map, Table.size]

theorem Sound.audit (h : t.Sound) : t.audit = .ok () := by
  have hroot : ¬ (t.node t.top).kind.isLeaf := by
    rw [h.linked.root_kind]
    decide
  exact audit_eq_ok_iff.mpr
    ⟨hroot, fun y hy => h.admitted (h.linked.mem_within_iff.mp hy), h.countP_leaves⟩

/-! ## What a passed audit says -/

/-- What the audit does not look at. A child that is out of range is a freed one to it. -/
structure Plausible (t : RoleTree α ω) : Prop where
  root_live : t.Live t.top
  root_parent : (t.node t.top).parent = none
  root_path : (t.node t.top).path = ""
  nodup_children : ∀ p, (t.node p).children.Nodup

/-- The nodes that the audit meets are all that are reached, and they link back. -/
structure Vetted (t : RoleTree α ω) : Prop where
  rooted : t.Rooted
  root_path : (t.node t.top).path = ""
  root_kind : ¬ (t.node t.top).kind.isLeaf
  admitted : ∀ {x}, t.Reached x → t.Admitted x
  leaves : (t.within t.slots.size t.top).countP (fun y => (t.node y).kind.isLeaf) = t.clients.size

/-- The audit comes down the lineage to the node, as it admitted all nodes above. -/
structure Traced (t : RoleTree α ω) (x : NodeId) (ids : List NodeId) : Prop where
  lineage : t.Lineage x ids
  nodup : ids.Nodup
  live : ∀ y ∈ ids, t.Live y
  above : ∀ y ∈ ids.tail, t.Admitted y

namespace Traced

theorem eq_cons (h : t.Traced x ids) : ids = x :: ids.tail := by
  obtain ⟨hlineage, -, -, -⟩ := h
  cases hlineage with
  | root => rfl
  | child _ _ => rfl

theorem admitted (h : t.Traced x ids) (hx : t.Admitted x) : ∀ y ∈ ids, t.Admitted y := by
  rw [h.eq_cons]
  exact List.forall_mem_cons.mpr ⟨hx, h.above⟩

theorem root (h : t.Plausible) : t.Traced t.top [t.top] where
  lineage := .root
  nodup := List.nodup_singleton _
  live := by simpa using h.root_live
  above _ hy := absurd hy List.not_mem_nil

/-- The parent of `c` is `p`, so above a `c` that came before there would be a `p` that came
before. -/
theorem not_mem_child (h : t.Plausible) (tr : t.Traced p ids) (hp : t.Admitted p)
    (hc : c ∈ (t.node p).children) : c ∉ ids := by
  intro hmem
  have hparent := (hp.links c hc).2.1
  obtain ⟨line, hline, hsuffix⟩ := tr.lineage.exists_suffix hmem
  cases hline with
  | root =>
    rw [h.root_parent] at hparent
    cases hparent
  | @child q _ above hq hcq =>
    have hqids : q ∈ ids := hsuffix.subset (List.mem_cons_of_mem c hq.mem_self)
    have hqp : q = p := by
      rw [((tr.admitted hp q hqids).links c hcq).2.1] at hparent
      exact Option.some.inj hparent
    have htail : above <:+ ids.tail := by
      apply List.suffix_of_suffix_length_le ((List.suffix_cons c above).trans hsuffix)
        (List.tail_suffix ids)
      have hlength := hsuffix.length_le
      rw [List.length_cons] at hlength
      rw [List.length_tail]
      omega
    have hnodup := tr.nodup
    rw [tr.eq_cons] at hnodup
    exact (List.nodup_cons.mp hnodup).1 (htail.subset (hqp ▸ hq.mem_self))

theorem child (h : t.Plausible) (tr : t.Traced p ids) (hp : t.Admitted p)
    (hc : c ∈ (t.node p).children) : t.Traced c (c :: ids) where
  lineage := tr.lineage.child hc
  nodup := List.nodup_cons.mpr ⟨not_mem_child h tr hp hc, tr.nodup⟩
  live := List.forall_mem_cons.mpr ⟨(hp.links c hc).1, tr.live⟩
  above := tr.admitted hp

end Traced

/-- Nodes that are no deeper than there are slots are met, and no lineage is longer. -/
theorem Plausible.traced (h : t.Plausible)
    (hadmitted : ∀ y ∈ t.within t.slots.size t.top, t.Admitted y) (hids : t.Lineage x ids) :
    t.Traced x ids := by
  induction hids with
  | root => exact .root h
  | child hp hmem ih =>
    have hlength := length_le_size ih.nodup ih.live
    exact ih.child h (hadmitted _ (hp.mem_within hlength)) hmem

theorem Plausible.vetted (h : t.Plausible) (haudit : t.audit = .ok ()) : t.Vetted := by
  obtain ⟨hroot, hwithin, hleaves⟩ := audit_eq_ok_iff.mp haudit
  have hadmitted {x : NodeId} (hx : t.Reached x) : t.Admitted x := by
    obtain ⟨ids, hids⟩ := hx
    have tr := h.traced hwithin hids
    exact hwithin x (hids.mem_within (length_le_size tr.nodup tr.live))
  have hrooted : t.Rooted := by
    refine ⟨h.root_live, h.root_parent, h.nodup_children, fun hp hc => ?_⟩
    obtain ⟨hlive, hparent, -⟩ := (hadmitted hp).links _ hc
    exact ⟨hlive, hparent⟩
  exact ⟨hrooted, h.root_path, hroot, hadmitted, hleaves⟩

namespace Vetted

/-- The leaves register different clients, and there are no more entries than leaves. -/
theorem client?_eq_some_iff (h : t.Vetted) {client : String} : t.client? client = some x ↔
    t.Reached x ∧ (t.node x).kind.isLeaf ∧ t.clientOf x = client := by
  let leaves := (t.within t.slots.size t.top).filter fun y => (t.node y).kind.isLeaf
  have hleaf (y : NodeId) : y ∈ leaves ↔ t.Reached y ∧ (t.node y).kind.isLeaf := by
    rw [List.mem_filter, h.rooted.mem_within_iff]
  have hnodup : (leaves.map fun y => (t.clientOf y, y)).Nodup :=
    ((h.rooted.nodup_within .root _).filter _).map fun _ _ heq => (Prod.mk.inj heq).2
  have hsub : (leaves.map fun y => (t.clientOf y, y)) ⊆ t.clients.entries := by
    intro e he
    obtain ⟨y, hy, rfl⟩ := List.mem_map.mp he
    obtain ⟨hreached, hkind⟩ := (hleaf y).mp hy
    exact (t.clients.get?_eq_some_iff _ _).mp ((h.admitted hreached).leaf hkind).2
  have hlength : t.clients.entries.length ≤ (leaves.map fun y => (t.clientOf y, y)).length := by
    rw [List.length_map, ← List.countP_eq_length_filter, h.leaves, Table.size]
  have hperm := (hnodup.subperm hsub).perm_of_length_le hlength
  rw [client?, Table.get?_eq_some_iff, ← hperm.mem_iff]
  simp only [List.mem_map, hleaf, Prod.mk.injEq]
  constructor
  · rintro ⟨y, ⟨hreached, hkind⟩, hclient, rfl⟩
    exact ⟨hreached, hkind, hclient⟩
  · rintro ⟨hreached, hkind, hclient⟩
    exact ⟨x, ⟨hreached, hkind⟩, hclient, rfl⟩

theorem bijOn_clientOf (h : t.Vetted) : Set.BijOn t.clientOf
    {x | t.Reached x ∧ (t.node x).kind.isLeaf} {client | t.clients.contains client} := by
  have hclient {x : NodeId} (hx : t.Reached x) (hleaf : (t.node x).kind.isLeaf) :
      t.client? (t.clientOf x) = some x :=
    h.client?_eq_some_iff.mpr ⟨hx, hleaf, rfl⟩
  refine ⟨?_, ?_, ?_⟩
  · rintro x ⟨hx, hleaf⟩
    exact Table.contains_of_get?_eq_some (hclient hx hleaf)
  · rintro x ⟨hx, hxleaf⟩ y ⟨hy, hyleaf⟩ heq
    have hxclient := hclient hx hxleaf
    rw [heq, hclient hy hyleaf] at hxclient
    exact (Option.some.inj hxclient).symm
  · intro client hcontains
    obtain ⟨x, hx⟩ := Option.isSome_iff_exists.mp hcontains
    obtain ⟨hreached, hleaf, heq⟩ := h.client?_eq_some_iff.mp hx
    exact ⟨x, ⟨hreached, hleaf⟩, heq⟩

/-- To go down to any child ends at a leaf, as lineages are no longer than there are slots. -/
theorem exists_leaf (h : t.Vetted) (hids : t.Lineage x ids) (hroot : x ≠ t.top) :
    ∃ y line, t.Lineage y line ∧ ids <:+ line ∧ (t.node y).kind.isLeaf := by
  induction hn : t.slots.size - ids.length using Nat.strongRecOn generalizing x ids with
  | ind n ih =>
    by_cases hleaf : (t.node x).kind.isLeaf
    · exact ⟨x, ids, hids, List.suffix_rfl, hleaf⟩
    · have hchildren := (h.admitted ⟨ids, hids⟩).role hleaf hroot
      obtain ⟨c, hc⟩ := List.exists_mem_of_ne_nil _ hchildren
      have hle := h.rooted.length_lineage_le (hids.child hc)
      rw [List.length_cons] at hle
      obtain ⟨y, line, hline, hsuffix, hy⟩ := ih _ (by rw [List.length_cons]; omega)
        (hids.child hc) (h.rooted.child_ne_root ⟨ids, hids⟩ hc) rfl
      exact ⟨y, line, hline, (List.suffix_cons c ids).trans hsuffix, hy⟩

theorem path_eq (h : t.Vetted) (hids : t.Lineage x ids) : (t.node x).path =
    RolePath.joinAll "" (ids.reverse.tail.map fun y => (t.node y).name) := by
  induction hids with
  | root => exact h.root_path
  | @child p c ids hp hmem ih =>
    have hne : ids.reverse ≠ [] := List.ne_nil_of_mem (List.mem_reverse.mpr hp.mem_self)
    rw [((h.admitted ⟨ids, hp⟩).links c hmem).2.2, ih, List.reverse_cons,
      List.tail_append_of_ne_nil hne, List.map_append, RolePath.joinAll, RolePath.joinAll,
      List.foldl_append]
    rfl

end Vetted

/-- The nodes that are reached form a tree, and the clients are its leaves. -/
structure Intact (t : RoleTree α ω) : Prop where
  live : ∀ x, t.Reached x → t.Live x
  once : ∀ x, t.Reached x → ∃! ids, t.Lineage x ids
  nodup : ∀ x ids, t.Lineage x ids → ids.Nodup
  parent : ∀ p, t.Reached p → ∀ c ∈ (t.node p).children, (t.node c).parent = some p
  root_kind : (t.node t.top).kind = .internal
  bijOn : Set.BijOn t.clientOf {x | t.Reached x ∧ (t.node x).kind.isLeaf}
    {client | t.clients.contains client}
  inverse : ∀ client x, t.client? client = some x ↔
    t.Reached x ∧ (t.node x).kind.isLeaf ∧ t.clientOf x = client
  leaf : ∀ x, t.Reached x → (t.node x).kind.isLeaf → (t.node x).children = []
  role : ∀ x, t.Reached x → x ≠ t.top → (t.node x).kind = .internal →
    ∃ y ids, t.Lineage y ids ∧ x ∈ ids ∧ (t.node y).kind.isLeaf
  path : ∀ x ids, t.Lineage x ids → (t.node x).path =
    RolePath.joinAll "" (ids.reverse.tail.map fun y => (t.node y).name)
  ordered : ∀ x, t.Reached x → (t.node x).children.Pairwise fun c d =>
    (t.node c).kind = .inactive → (t.node d).kind = .inactive

/-- No operation has to have built a tree for its audit to say this. -/
theorem intact_of_audit (h : t.Plausible) (haudit : t.audit = .ok ()) : Intact t := by
  have hvetted := h.vetted haudit
  constructor
  case live => exact fun _ => hvetted.rooted.live
  case once =>
    rintro x ⟨ids, hids⟩
    exact ⟨ids, hids, fun _ hids' => hvetted.rooted.lineage_unique hids' hids⟩
  case nodup => exact fun _ _ => hvetted.rooted.nodup_lineage
  case parent => exact fun _ hp _ hc => (hvetted.rooted.down hp hc).2
  case root_kind => simpa [isLeaf_iff] using hvetted.root_kind
  case bijOn => exact hvetted.bijOn_clientOf
  case inverse => exact fun _ _ => hvetted.client?_eq_some_iff
  case leaf => exact fun _ hx hleaf => ((hvetted.admitted hx).leaf hleaf).1
  case role =>
    rintro x ⟨ids, hids⟩ hroot -
    obtain ⟨y, line, hline, hsuffix, hleaf⟩ := hvetted.exists_leaf hids hroot
    exact ⟨y, line, hline, hsuffix.subset hids.mem_self, hleaf⟩
  case path => exact fun _ _ => hvetted.path_eq
  case ordered => exact fun _ hx => (hvetted.admitted hx).ordered

/-- A tree that no operation built: the root is not in the first slot, a role has its own leaf
alone, and nothing leads to a slot with links of its own. -/
def patched : RoleTree Int Rat where
  slots := #[
    some ⟨"a", "a", .internal, some 2, [4], none, {}⟩,
    some ⟨"b", "b", .inactive, some 2, [], none, {}⟩,
    some ⟨"", "", .internal, none, [0, 1], none, {}⟩,
    some ⟨"lost", "x", .inactive, some 3, [3, 1], none, {}⟩,
    some ⟨".", "a/.", .active, some 0, [], none, {}⟩]
  free := [1]
  top := 2
  clients := .ofList [("a", 4), ("b", 1)]

theorem intact_patched : Plausible patched ∧ patched.audit = .ok () ∧ Intact patched := by
  have hnodup : ∀ p, (patched.node p).children.Nodup
    | 0 | 1 | 2 | 3 | 4 => by decide
    | _ + 5 => List.nodup_nil
  have hgiven : Plausible patched := ⟨by decide, by decide, by decide, hnodup⟩
  have haudit : patched.audit = .ok () := rfl
  exact ⟨hgiven, haudit, intact_of_audit hgiven haudit⟩

end RoleLottery.RoleTree
