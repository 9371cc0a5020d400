import Mathlib.Data.List.Perm.Subperm
import RoleLottery.Proofs.RoleTree.Linked

/-!
# Lineages

From every node a single line of parents leads up to the root. It is as long as the path says, and
no longer than the number of slots. A path belongs to one node only.
-/

namespace RoleLottery

namespace RolePath

def depth (path : String) : Nat := if path = "" then 0 else (segments path).length

theorem depth_join (p : String) {name : String} (h : IsName name) :
    depth (join p name) = depth p + 1 := by
  unfold depth
  rw [if_neg (join_ne_empty p h), segments_join p h]
  split <;> simp

end RolePath

namespace RoleTree

variable {α ω : Type} {t : RoleTree α ω} {x y p c : NodeId} {ids : List NodeId}

/-- The nodes from `x` up to the root, each one a child of the next. -/
inductive Lineage (t : RoleTree α ω) : NodeId → List NodeId → Prop
  | root : Lineage t t.top [t.top]
  | child {p c : NodeId} {ids : List NodeId} :
    Lineage t p ids → c ∈ (t.node p).children → Lineage t c (c :: ids)

/-- Children lead from the root to the node. -/
def Reached (t : RoleTree α ω) (x : NodeId) : Prop := ∃ ids, t.Lineage x ids

theorem Reached.root : t.Reached t.top := ⟨_, .root⟩

theorem Reached.child (hp : t.Reached p) (hc : c ∈ (t.node p).children) : t.Reached c := by
  obtain ⟨ids, hids⟩ := hp
  exact ⟨_, .child hids hc⟩

theorem Lineage.mem_self (hids : t.Lineage x ids) : x ∈ ids := by
  cases hids with
  | root => exact List.mem_cons_self
  | child _ _ => exact List.mem_cons_self

theorem Lineage.exists_suffix (hids : t.Lineage x ids) (hy : y ∈ ids) :
    ∃ above, t.Lineage y above ∧ above <:+ ids := by
  induction hids with
  | root =>
    rw [List.mem_singleton.mp hy]
    exact ⟨_, .root, List.suffix_rfl⟩
  | child hp hmem ih =>
    rcases List.mem_cons.mp hy with hyc | hy
    · rw [hyc]
      exact ⟨_, .child hp hmem, List.suffix_rfl⟩
    · obtain ⟨above, habove, hsuffix⟩ := ih hy
      exact ⟨above, habove, hsuffix.trans (List.suffix_cons _ _)⟩

theorem Lineage.mono {t' : RoleTree α ω} (hids : t.Lineage x ids) (htop : t'.top = t.top)
    (h : ∀ p ∈ ids, ∀ c ∈ ids, c ∈ (t.node p).children → c ∈ (t'.node p).children) :
    t'.Lineage x ids := by
  induction hids with
  | root => exact htop ▸ .root
  | child hp hmem ih =>
    obtain ⟨-, hids⟩ := List.forall_mem_cons.mp h
    refine .child (ih fun p hp c hc => hids p hp c (List.mem_cons_of_mem _ hc)) ?_
    exact hids _ hp.mem_self _ List.mem_cons_self hmem

theorem length_le_size (hnodup : ids.Nodup) (hlive : ∀ y ∈ ids, t.Live y) :
    ids.length ≤ t.slots.size := by
  have hsub : ids ⊆ List.range t.slots.size := fun y hy => List.mem_range.mpr (hlive y hy).lt_size
  have hle := (hnodup.subperm hsub).length_le
  rwa [List.length_range] at hle

/-! ## Links that agree -/

/-- Where children lead, parents lead back. -/
structure Rooted (t : RoleTree α ω) : Prop where
  root_live : t.Live t.top
  root_parent : (t.node t.top).parent = none
  nodup_children : ∀ p, (t.node p).children.Nodup
  down : ∀ {p c}, t.Reached p → c ∈ (t.node p).children → t.Live c ∧ (t.node c).parent = some p

namespace Rooted

theorem live (h : t.Rooted) (hx : t.Reached x) : t.Live x := by
  obtain ⟨ids, hids⟩ := hx
  cases hids with
  | root => exact h.root_live
  | child hp hmem => exact (h.down ⟨_, hp⟩ hmem).1

theorem child_ne_root (h : t.Rooted) (hp : t.Reached p) (hc : c ∈ (t.node p).children) :
    c ≠ t.top := by
  intro he
  have hparent := (h.down hp hc).2
  rw [he, h.root_parent] at hparent
  cases hparent

theorem lineage_unique (h : t.Rooted) {ids' : List NodeId} (hids : t.Lineage x ids)
    (hids' : t.Lineage x ids') : ids = ids' := by
  induction hids generalizing ids' with
  | root =>
    cases hids' with
    | root => rfl
    | child hq hmem => exact absurd rfl (h.child_ne_root ⟨_, hq⟩ hmem)
  | child hp hmem ih =>
    cases hids' with
    | root => exact absurd rfl (h.child_ne_root ⟨_, hp⟩ hmem)
    | child hq hmem' =>
      have hparent := (h.down ⟨_, hp⟩ hmem).2
      rw [(h.down ⟨_, hq⟩ hmem').2] at hparent
      obtain rfl := Option.some.inj hparent
      rw [ih hq]

/-- A node that came twice would have two lineages. -/
theorem nodup_lineage (h : t.Rooted) (hids : t.Lineage x ids) : ids.Nodup := by
  induction hids with
  | root => exact List.nodup_singleton t.top
  | child hp hmem ih =>
    apply List.nodup_cons.mpr ⟨fun hc => ?_, ih⟩
    obtain ⟨above, habove, hsuffix⟩ := hp.exists_suffix hc
    have hlength := hsuffix.length_le
    rw [h.lineage_unique habove (.child hp hmem), List.length_cons] at hlength
    omega

theorem length_lineage_le (h : t.Rooted) (hids : t.Lineage x ids) :
    ids.length ≤ t.slots.size := by
  apply length_le_size (h.nodup_lineage hids)
  intro y hy
  obtain ⟨above, habove, -⟩ := hids.exists_suffix hy
  exact h.live ⟨_, habove⟩

end Rooted

theorem Linked.rooted (h : t.Linked []) : t.Rooted where
  root_live := h.root_live
  root_parent := h.root_parent
  nodup_children := h.nodup_children
  down _ hc := ⟨(h.down hc).1, (h.down hc).2.2.1⟩

/-! ## Lineages and paths -/

theorem Linked.induction_down (h : t.Linked []) {motive : NodeId → Prop} (hroot : motive t.top)
    (hchild : ∀ {p c}, c ∈ (t.node p).children → motive p → motive c) (hx : t.Live x) :
    motive x := by
  induction hn : (t.node x).path.length using Nat.strongRecOn generalizing x with
  | ind n ih =>
    by_cases hxroot : x = t.top
    · exact hxroot ▸ hroot
    · obtain ⟨p, -, hmem⟩ := h.up hx hxroot List.not_mem_nil
      have hlt := h.length_path_lt hmem
      exact hchild hmem (ih _ (hn ▸ hlt) (live_of_mem_children hmem) rfl)

theorem Linked.exists_lineage (h : t.Linked []) (hx : t.Live x) : ∃ ids, t.Lineage x ids := by
  refine h.induction_down (motive := fun x => ∃ ids, t.Lineage x ids) ⟨_, .root⟩
    (fun hmem hp => ?_) hx
  obtain ⟨ids, hids⟩ := hp
  exact ⟨_, .child hids hmem⟩

/-- The slots in use are those that children lead to. -/
theorem Linked.reached_iff (h : t.Linked []) : t.Reached x ↔ t.Live x :=
  ⟨h.rooted.live, h.exists_lineage⟩

theorem Linked.lineage_unique (h : t.Linked []) {ids' : List NodeId} (hids : t.Lineage x ids)
    (hids' : t.Lineage x ids') : ids = ids' :=
  h.rooted.lineage_unique hids hids'

theorem Linked.length_lineage (h : t.Linked []) (hids : t.Lineage x ids) :
    ids.length = RolePath.depth (t.node x).path + 1 := by
  induction hids with
  | root => simp [h.root_path, RolePath.depth]
  | child _ hmem ih =>
    obtain ⟨hlive, -, -, hpath⟩ := h.down hmem
    rw [hpath, RolePath.depth_join _ (h.named hlive (h.child_ne_root hmem)), List.length_cons, ih]

theorem Linked.lineage_mem (h : t.Linked []) (hids : t.Lineage x ids) :
    ∀ y ∈ ids, t.Live y ∧ (t.node y).path.length ≤ (t.node x).path.length := by
  induction hids with
  | root =>
    intro y hy
    rw [List.mem_singleton.mp hy]
    exact ⟨h.root_live, Nat.le_refl _⟩
  | child _ hmem ih =>
    intro y hy
    rcases List.mem_cons.mp hy with rfl | hy
    · exact ⟨(h.down hmem).1, Nat.le_refl _⟩
    · have hlt := h.length_path_lt hmem
      exact ⟨(ih y hy).1, by have := (ih y hy).2; omega⟩

theorem Linked.depth_lt_size (h : t.Linked []) (hx : t.Live x) :
    RolePath.depth (t.node x).path < t.slots.size := by
  obtain ⟨ids, hids⟩ := h.exists_lineage hx
  have hle := h.rooted.length_lineage_le hids
  rw [h.length_lineage hids] at hle
  omega

theorem Linked.depth_child (h : t.Linked []) (hc : c ∈ (t.node p).children) :
    RolePath.depth (t.node c).path = RolePath.depth (t.node p).path + 1 := by
  obtain ⟨hlive, -, -, hpath⟩ := h.down hc
  rw [hpath, RolePath.depth_join _ (h.named hlive (h.child_ne_root hc))]

theorem Linked.path_injective (h : t.Linked []) (hx : t.Live x) (hy : t.Live y)
    (hpath : (t.node x).path = (t.node y).path) : x = y := by
  have hunique : ∀ y, t.Live y → (t.node x).path = (t.node y).path → x = y := by
    refine h.induction_down
      (motive := fun x => ∀ y, t.Live y → (t.node x).path = (t.node y).path → x = y) ?_ ?_ hx
    · intro y hy hpath
      by_contra hne
      obtain ⟨q, -, hymem⟩ := h.up hy (Ne.symm hne) List.not_mem_nil
      exact h.path_ne_empty hymem (hpath.symm.trans h.root_path)
    · intro p c hmem ih y hy hpath
      obtain ⟨hc, -, -, hcpath⟩ := h.down hmem
      have hyroot : y ≠ t.top := by
        intro he
        subst he
        exact h.path_ne_empty hmem (hpath.trans h.root_path)
      obtain ⟨q, -, hymem⟩ := h.up hy hyroot List.not_mem_nil
      rw [hcpath, (h.down hymem).2.2.2] at hpath
      obtain ⟨hpq, hname⟩ :=
        RolePath.join_injective (h.named hc (h.child_ne_root hmem)) (h.named hy hyroot) hpath
      obtain rfl := ih q (live_of_mem_children hymem) hpq
      exact h.eq_of_name_eq hmem hymem hname
  exact hunique y hy hpath

end RoleTree

end RoleLottery
