import RoleLottery.Proofs.RoleTree.History
import RoleLottery.Proofs.RoleTree.Walks
import RoleLottery.RoleTree.Weights

/-!
# Nodes that lead to active leaves

Climbing from the active leaves up to the first node that was met before collects exactly the nodes
with an active leaf at or below them.
-/

namespace RoleLottery.RoleTree

variable {α ω : Type} {t : RoleTree α ω} {x y p c : NodeId} {ids live : List NodeId}

/-- An active leaf is at or below the node. -/
def leadsToActive (t : RoleTree α ω) (x : NodeId) : Bool :=
  (t.within t.slots.size x).any fun y => (t.node y).kind = .active

theorem live_of_active (hkind : (t.node x).kind = .active) : t.Live x := by
  by_contra hlive
  rw [node_of_not_live hlive] at hkind
  cases hkind

theorem Sound.client?_of_active (h : t.Sound) (hkind : (t.node x).kind = .active) :
    t.client? (t.clientOf x) = some x :=
  h.client?_clientOf (live_of_active hkind) (by rw [hkind]; decide)

theorem Lineage.root_mem (hids : t.Lineage x ids) : t.top ∈ ids := by
  induction hids with
  | root => exact List.mem_singleton_self t.top
  | child _ _ ih => exact List.mem_cons_of_mem _ ih

theorem Lineage.exists_child (hids : t.Lineage x ids) (hp : p ∈ ids) (hne : p ≠ x) :
    ∃ c ∈ (t.node p).children, c ∈ ids := by
  induction hids with
  | root => exact absurd (List.mem_singleton.mp hp) hne
  | @child q c ids hq hmem ih =>
    have hpq := (List.mem_cons.mp hp).resolve_left hne
    by_cases heq : p = q
    · exact ⟨c, heq ▸ hmem, List.mem_cons_self⟩
    · obtain ⟨d, hd, hdmem⟩ := ih hpq heq
      exact ⟨d, hd, List.mem_cons_of_mem c hdmem⟩

/-! ## Walks and lineages -/

theorem within_mono {depth deeper : Nat} (hle : depth ≤ deeper) (hy : y ∈ t.within depth x) :
    y ∈ t.within deeper x := by
  induction depth generalizing deeper x with
  | zero => exact absurd hy List.not_mem_nil
  | succ depth ih =>
    cases deeper with
    | zero => omega
    | succ deeper =>
      rcases mem_within_succ.mp hy with hyx | ⟨c, hc, hy⟩
      · exact mem_within_succ.mpr (.inl hyx)
      · exact mem_within_succ.mpr (.inr ⟨c, hc, ih (Nat.le_of_succ_le_succ hle) hy⟩)

theorem Linked.mem_within_of_lineage (h : t.Linked []) (hids : t.Lineage y ids) (hx : x ∈ ids) :
    y ∈ t.within t.slots.size x := by
  have hsteps : y ∈ t.within (RolePath.depth (t.node y).path + 1) x := by
    induction hids with
    | root =>
      rw [List.mem_singleton.mp hx]
      exact List.mem_cons_self
    | child hp hmem ih =>
      rw [h.depth_child hmem]
      rcases List.mem_cons.mp hx with hxc | hx
      · rw [hxc]
        exact List.mem_cons_self
      · exact mem_within_child (ih hx) hmem
  exact within_mono (h.depth_lt_size (h.rooted.live ⟨_, hids⟩)) hsteps

theorem Linked.mem_within_size_iff (h : t.Linked []) (hx : t.Reached x) :
    y ∈ t.within t.slots.size x ↔ ∃ ids, t.Lineage y ids ∧ x ∈ ids := by
  constructor
  · intro hy
    obtain ⟨ids, hids⟩ := hx
    obtain ⟨line, hline, hsuffix⟩ := hids.exists_of_mem_within hy
    exact ⟨line, hline, hsuffix.subset hids.mem_self⟩
  · rintro ⟨ids, hids, hmem⟩
    exact h.mem_within_of_lineage hids hmem

theorem Linked.leadsToActive_iff (h : t.Linked []) : t.leadsToActive x = true ↔
    ∃ y ids, (t.node y).kind = .active ∧ t.Lineage y ids ∧ x ∈ ids := by
  simp only [leadsToActive, List.any_eq_true, decide_eq_true_eq]
  constructor
  · rintro ⟨y, hy, hkind⟩
    obtain ⟨ids, hids⟩ := h.exists_lineage (live_of_active hkind)
    exact ⟨y, ids, hkind, hids, h.mem_lineage_of_mem_within hy hids⟩
  · rintro ⟨y, ids, hkind, hids, hx⟩
    exact ⟨y, h.mem_within_of_lineage hids hx, hkind⟩

theorem Linked.leadsToActive_of_active (h : t.Linked []) (hkind : (t.node x).kind = .active) :
    t.leadsToActive x = true := by
  obtain ⟨ids, hids⟩ := h.exists_lineage (live_of_active hkind)
  exact h.leadsToActive_iff.mpr ⟨x, ids, hkind, hids, hids.mem_self⟩

/-! ## Climbing -/

/-- With each node its parent is in the list. -/
def Closed (t : RoleTree α ω) (live : List NodeId) : Prop :=
  ∀ c ∈ live, ∀ p, (t.node c).parent = some p → p ∈ live

theorem Linked.mem_of_closed (h : t.Linked []) (hclosed : t.Closed live) (hx : x ∈ live)
    (hids : t.Lineage x ids) : ∀ y ∈ ids, y ∈ live := by
  induction hids with
  | root =>
    intro y hy
    rwa [List.mem_singleton.mp hy]
  | child _ hmem ih =>
    exact List.forall_mem_cons.mpr ⟨hx, ih (hclosed _ hx _ (h.down hmem).2.2.1)⟩

/-- On the way up only the node that comes next may be missing. -/
def ClosedBut (t : RoleTree α ω) (x : NodeId) (live : List NodeId) : Prop :=
  ∀ c ∈ live, ∀ p, (t.node c).parent = some p → p ∈ live ∨ p = x

theorem ClosedBut.closed (hclosed : t.ClosedBut x live) (hx : x ∈ live) : t.Closed live := by
  intro c hc p hp
  rcases hclosed c hc p hp with hmem | rfl
  · exact hmem
  · exact hx

theorem ClosedBut.up (hclosed : t.ClosedBut x live) (hparent : (t.node x).parent = some p) :
    t.ClosedBut p (x :: live) := by
  refine List.forall_mem_cons.mpr ⟨fun q hq => ?_, fun d hd q hq => ?_⟩
  · rw [hparent] at hq
    exact .inr (Option.some.inj hq).symm
  · rcases hclosed d hd q hq with hmem | rfl
    · exact .inl (List.mem_cons_of_mem x hmem)
    · exact .inl List.mem_cons_self

theorem Linked.mem_climb (h : t.Linked []) (hids : t.Lineage x ids) {steps : Nat}
    (hclosed : t.ClosedBut x live) (hsteps : ids.length ≤ steps) :
    y ∈ t.climb steps live x ↔ y ∈ live ∨ y ∈ ids := by
  induction hids generalizing live steps with
  | root =>
    cases steps with
    | zero => simp at hsteps
    | succ steps =>
      rw [climb]
      split
      · rename_i hx
        have hmem : t.top ∈ live := by simpa using hx
        simp only [List.mem_singleton, iff_self_or]
        exact fun hy => hy ▸ hmem
      · rw [h.root_parent]
        simp [or_comm]
  | @child p c ids hp hmem ih =>
    cases steps with
    | zero => simp at hsteps
    | succ steps =>
      have hparent := (h.down hmem).2.2.1
      rw [climb]
      split
      · rename_i hx
        have hlive := h.mem_of_closed (hclosed.closed (by simpa using hx)) (by simpa using hx)
          (.child hp hmem)
        exact ⟨.inl, fun hy => hy.elim id (hlive y)⟩
      · rw [hparent]
        dsimp only
        rw [ih (hclosed.up hparent) (by simpa using hsteps), List.mem_cons, List.mem_cons, or_assoc,
          or_left_comm]

theorem Linked.closed_climb (h : t.Linked []) (hx : t.Live x) (hclosed : t.Closed live) :
    t.Closed (t.climb t.slots.size live x) := by
  obtain ⟨ids, hids⟩ := h.exists_lineage hx
  have hsteps := h.rooted.length_lineage_le hids
  have hbut : t.ClosedBut x live := fun c hc p hp => .inl (hclosed c hc p hp)
  intro c hc p hparent
  rw [h.mem_climb hids hbut hsteps] at hc ⊢
  rcases hc with hc | hc
  · exact .inl (hclosed c hc p hparent)
  · have hmem := h.mem_children_of_parent (h.lineage_mem hids c hc).1 hparent
    exact .inr (h.parent_mem_lineage hids hc hmem)

theorem Linked.mem_foldl_climb (h : t.Linked []) {leaves : List NodeId}
    (hleaves : ∀ leaf ∈ leaves, t.Live leaf) (hclosed : t.Closed live) :
    y ∈ leaves.foldl (t.climb t.slots.size) live ↔
      y ∈ live ∨ ∃ leaf ∈ leaves, ∃ ids, t.Lineage leaf ids ∧ y ∈ ids := by
  induction leaves generalizing live with
  | nil => simp
  | cons leaf leaves ih =>
    obtain ⟨hleaf, hleaves⟩ := List.forall_mem_cons.mp hleaves
    obtain ⟨ids, hids⟩ := h.exists_lineage hleaf
    have hsteps := h.rooted.length_lineage_le hids
    have hbut : t.ClosedBut leaf live := fun c hc p hp => .inl (hclosed c hc p hp)
    have hline : y ∈ ids ↔ ∃ ids, t.Lineage leaf ids ∧ y ∈ ids :=
      ⟨fun hy => ⟨ids, hids, hy⟩, fun ⟨_, hids', hy⟩ => h.lineage_unique hids hids' ▸ hy⟩
    rw [List.foldl_cons, ih hleaves (h.closed_climb hleaf hclosed), h.mem_climb hids hbut hsteps,
      List.exists_mem_cons_iff, hline, or_assoc]

/-- The nodes that the climbs collect are those that lead to an active leaf. -/
theorem Sound.mem_live_iff (h : t.Sound) : x ∈ t.live ↔ t.leadsToActive x = true := by
  have hleaves : ∀ y, (y ∈ t.clients.values.filter fun leaf => (t.node leaf).kind = .active) ↔
      (t.node y).kind = .active := by
    intro y
    rw [List.mem_filter, decide_eq_true_eq, Table.mem_values]
    exact ⟨fun hy => hy.2, fun hkind => ⟨⟨t.clientOf y, h.client?_of_active hkind⟩, hkind⟩⟩
  unfold live
  rw [h.linked.mem_foldl_climb (fun y hy => live_of_active ((hleaves y).mp hy))
    (fun _ hc => absurd hc List.not_mem_nil), h.linked.leadsToActive_iff]
  simp only [List.not_mem_nil, false_or, hleaves]
  constructor
  · rintro ⟨y, hkind, ids, hids, hx⟩
    exact ⟨y, ids, hkind, hids, hx⟩
  · rintro ⟨y, ids, hkind, hids, hx⟩
    exact ⟨y, hkind, ids, hids, hx⟩

end RoleLottery.RoleTree
