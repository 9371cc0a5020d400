import RoleLottery.Proofs.RoleTree.KeptWeights
import RoleLottery.Proofs.RoleTree.Leading
import RoleLottery.Proofs.Shares

/-!
# Odds

The odds of a node are the product of the portions of all nodes on the way down to it. The shares of
the active clients are the odds of their leaves.
-/

namespace RoleLottery.RoleTree

variable {α ω : Type}

def lineUp (t : RoleTree α ω) : Nat → NodeId → List NodeId
  | 0, _ => []
  | steps + 1, x =>
    match (t.node x).parent with
    | none => [x]
    | some p => x :: t.lineUp steps p

theorem Linked.lineUp_eq {t : RoleTree α ω} (h : t.Linked []) {x : NodeId} {ids : List NodeId}
    (hids : t.Lineage x ids) {steps : Nat} (hsteps : ids.length ≤ steps) :
    t.lineUp steps x = ids := by
  induction hids generalizing steps with
  | root =>
    cases steps with
    | zero => simp at hsteps
    | succ steps => rw [lineUp, h.root_parent]
  | child _ hmem ih =>
    cases steps with
    | zero => simp at hsteps
    | succ steps =>
      rw [lineUp, (h.down hmem).2.2.1]
      dsimp only
      rw [ih (by simpa using hsteps)]

theorem configured_of_forall [Weight ω] {weights : Table ω} {motive : ω → Prop}
    (hone : motive Weight.one) (hweights : ∀ path w, weights.get? path = some w → motive w)
    (path : String) : motive (configured weights path) := by
  unfold configured
  cases hw : weights.get? path with
  | none => exact hone
  | some w => exact hweights path w hw

/-! ## Portions -/

variable {t : RoleTree α Rat} {weights : Table Rat} {x p c : NodeId} {ids : List NodeId}

def nodeWeight (t : RoleTree α Rat) (weights : Table Rat) (x : NodeId) : Rat :=
  configured weights (t.node x).path

/-- The weight of all children that lead to active leaves. -/
def liveWeight (t : RoleTree α Rat) (weights : Table Rat) (p : NodeId) : Rat :=
  (((t.node p).children.filter t.leadsToActive).map (t.nodeWeight weights)).sum

/-- The part that a node gets of what comes to its parent. The root has all. -/
def portion (t : RoleTree α Rat) (weights : Table Rat) (x : NodeId) : Rat :=
  match (t.node x).parent with
  | none => 1
  | some p => proportion (t.liveWeight weights p) (t.nodeWeight weights x)

/-- The part of the whole that comes to a node. -/
def odds (t : RoleTree α Rat) (weights : Table Rat) (x : NodeId) : Rat :=
  ((t.lineUp t.slots.size x).map (t.portion weights)).prod

theorem Linked.odds_eq_prod (h : t.Linked []) (hids : t.Lineage x ids) :
    t.odds weights x = (ids.map (t.portion weights)).prod := by
  rw [odds, h.lineUp_eq hids (h.rooted.length_lineage_le hids)]

theorem Linked.odds_root (h : t.Linked []) : t.odds weights t.top = 1 := by
  rw [h.odds_eq_prod .root, List.map_singleton, List.prod_singleton, portion, h.root_parent]

theorem Linked.portion_child (h : t.Linked []) (hc : c ∈ (t.node p).children) :
    t.portion weights c = proportion (t.liveWeight weights p) (t.nodeWeight weights c) := by
  rw [portion, (h.down hc).2.2.1]

theorem Linked.odds_child (h : t.Linked []) (hc : c ∈ (t.node p).children) :
    t.odds weights c =
      t.odds weights p * proportion (t.liveWeight weights p) (t.nodeWeight weights c) := by
  obtain ⟨ids, hids⟩ := h.exists_lineage (live_of_mem_children hc)
  rw [h.odds_eq_prod (.child hids hc), List.map_cons, List.prod_cons, h.odds_eq_prod hids,
    h.portion_child hc, mul_comm]

/-! ## Active leaves -/

/-- The active leaves at or below a node, down to a depth. -/
def activeWithin (t : RoleTree α ω) (depth : Nat) (x : NodeId) : List NodeId :=
  (t.within depth x).filter fun y => (t.node y).kind = .active

theorem Linked.activeWithin_eq_nil {t : RoleTree α ω} (h : t.Linked []) {x : NodeId}
    (hx : t.leadsToActive x = false) (depth : Nat) : t.activeWithin depth x = [] := by
  apply List.filter_eq_nil_iff.mpr
  intro y hy hkind
  have hactive : (t.node y).kind = .active := by simpa using hkind
  obtain ⟨ids, hids⟩ := h.exists_lineage (live_of_active hactive)
  have hleads := h.leadsToActive_iff.mpr
    ⟨y, ids, hactive, hids, h.mem_lineage_of_mem_within hy hids⟩
  rw [hx] at hleads
  exact absurd hleads (by simp)

theorem Linked.activeWithin_succ {t : RoleTree α ω} (h : t.Linked []) {x : NodeId}
    (hkind : (t.node x).kind = .internal) (depth : Nat) : t.activeWithin (depth + 1) x =
      ((t.node x).children.filter t.leadsToActive).flatMap (t.activeWithin depth) := by
  have hdead (children : List NodeId) : children.flatMap (t.activeWithin depth) =
      (children.filter t.leadsToActive).flatMap (t.activeWithin depth) := by
    induction children with
    | nil => rfl
    | cons c children ih =>
      rw [List.flatMap_cons, List.filter_cons, ih]
      cases hc : t.leadsToActive c with
      | true => rfl
      | false => simp [h.activeWithin_eq_nil hc]
  rw [← hdead, activeWithin, within, List.filter_cons_of_neg (by simp [hkind]),
    List.filter_flatMap]
  rfl

theorem Linked.activeWithin_inactive {t : RoleTree α ω} (h : t.Linked []) {x : NodeId}
    (hkind : (t.node x).kind = .inactive) (depth : Nat) : t.activeWithin (depth + 1) x = [] := by
  rw [activeWithin, within, h.leaf (by rw [hkind]; decide)]
  simp [hkind]

theorem Linked.activeWithin_leaf {t : RoleTree α ω} (h : t.Linked []) {x : NodeId}
    (hkind : (t.node x).kind = .active) (depth : Nat) : t.activeWithin (depth + 1) x = [x] := by
  rw [activeWithin, within, h.leaf (by rw [hkind]; decide)]
  simp [hkind]

theorem Sound.liveChildren_eq {t : RoleTree α ω} (h : t.Sound) (x : NodeId) :
    t.liveChildren t.live x = (t.node x).children.filter t.leadsToActive := by
  apply List.filter_congr
  intro c _
  rw [Bool.eq_iff_iff, ← h.mem_live_iff]
  simp

theorem Linked.mem_activeWithin_root {t : RoleTree α ω} (h : t.Linked []) {x : NodeId} :
    x ∈ t.activeWithin t.slots.size t.top ↔ (t.node x).kind = .active := by
  rw [activeWithin, List.mem_filter, h.mem_within_iff, decide_eq_true_eq]
  exact ⟨fun hx => hx.2, fun hkind => ⟨live_of_active hkind, hkind⟩⟩

theorem Sound.nodup_activeClients {t : RoleTree α ω} (h : t.Sound) :
    ((t.activeWithin t.slots.size t.top).map t.clientOf).Nodup := by
  have hnodup := h.linked.rooted.nodup_within .root t.slots.size
  have hleaf {z : NodeId} (hz : z ∈ t.activeWithin t.slots.size t.top) :
      t.client? (t.clientOf z) = some z :=
    h.client?_of_active (h.linked.mem_activeWithin_root.mp hz)
  refine List.Nodup.map_on ?_ (hnodup.filter _)
  intro x hx y hy hclient
  exact Option.some.inj ((hleaf hx).symm.trans ((congrArg t.client? hclient).trans (hleaf hy)))

theorem Linked.leadsToActive_parent {t : RoleTree α ω} (h : t.Linked []) {p c : NodeId}
    (hc : c ∈ (t.node p).children) (hleads : t.leadsToActive c = true) :
    t.leadsToActive p = true := by
  obtain ⟨y, ids, hkind, hids, hmem⟩ := h.leadsToActive_iff.mp hleads
  exact h.leadsToActive_iff.mpr ⟨y, ids, hkind, hids, h.parent_mem_lineage hids hmem hc⟩

theorem Linked.kind_ne_inactive {t : RoleTree α ω} (h : t.Linked []) {x : NodeId}
    (hleads : t.leadsToActive x = true) : (t.node x).kind ≠ .inactive := by
  intro hkind
  have hnil := h.activeWithin_inactive hkind t.slots.size
  obtain ⟨y, hy, hactive⟩ := List.any_eq_true.mp hleads
  have hmem : y ∈ t.activeWithin (t.slots.size + 1) x :=
    List.mem_filter.mpr ⟨within_mono (Nat.le_succ _) hy, hactive⟩
  rw [hnil] at hmem
  exact absurd hmem List.not_mem_nil

theorem Linked.exists_leading_child {t : RoleTree α ω} (h : t.Linked []) {x : NodeId}
    (hkind : (t.node x).kind = .internal) (hleads : t.leadsToActive x = true) :
    ∃ c ∈ (t.node x).children, t.leadsToActive c = true := by
  obtain ⟨y, ids, hactive, hids, hx⟩ := h.leadsToActive_iff.mp hleads
  have hne : x ≠ y := by
    rintro rfl
    rw [hkind] at hactive
    exact absurd hactive (by decide)
  obtain ⟨c, hc, hmem⟩ := hids.exists_child hx hne
  exact ⟨c, hc, h.leadsToActive_iff.mpr ⟨y, ids, hactive, hids, hmem⟩⟩

/-- Wherever active leaves are reached, one of the ways has a positive weight. -/
def PassesOn (t : RoleTree α Rat) (weights : Table Rat) : Prop :=
  ∀ x, (t.node x).kind = .internal → t.leadsToActive x = true →
    ∃ c ∈ (t.node x).children, t.leadsToActive c = true ∧ 0 < t.nodeWeight weights c

theorem Linked.passesOn (h : t.Linked [])
    (hweights : ∀ path w, weights.get? path = some w → 0 < w) : t.PassesOn weights := by
  intro x hkind hleads
  obtain ⟨c, hc, hcleads⟩ := h.exists_leading_child hkind hleads
  exact ⟨c, hc, hcleads, configured_of_forall zero_lt_one hweights (t.node c).path⟩

/-! ## Weights that are not negative -/

section Nonneg

variable (hweights : ∀ path w, weights.get? path = some w → 0 ≤ w)

include hweights

theorem nodeWeight_nonneg (t : RoleTree α Rat) (x : NodeId) : 0 ≤ t.nodeWeight weights x :=
  configured_of_forall zero_le_one hweights (t.node x).path

theorem Sound.sharesWithin_eq (h : t.Sound) (depth : Nat) (x : NodeId) :
    t.sharesWithin (t.nodeWeight weights) t.live depth x (t.odds weights x) =
      (t.activeWithin depth x).map fun y => (t.clientOf y, t.odds weights y) := by
  induction depth generalizing x with
  | zero => rfl
  | succ depth ih =>
    rw [sharesWithin]
    cases hkind : (t.node x).kind with
    | inactive =>
      rw [h.linked.activeWithin_inactive hkind]
      rfl
    | active =>
      rw [h.linked.activeWithin_leaf hkind]
      rfl
    | internal =>
      dsimp only
      rw [h.liveChildren_eq, h.linked.activeWithin_succ hkind, List.map_flatMap]
      have hnonneg : ∀ w ∈ ((t.node x).children.filter t.leadsToActive).map
          (t.nodeWeight weights), 0 ≤ w := by
        intro w hw
        obtain ⟨c, -, rfl⟩ := List.mem_map.mp hw
        exact t.nodeWeight_nonneg hweights c
      have hparts : divide (t.odds weights x) (((t.node x).children.filter t.leadsToActive).map
          (t.nodeWeight weights)) =
          ((t.node x).children.filter t.leadsToActive).map (t.odds weights) := by
        rw [divide_eq hnonneg, List.map_map]
        apply List.map_congr_left
        intro c hc
        exact (h.linked.odds_child (List.mem_filter.mp hc).1).symm
      rw [hparts, ← List.map_prod_left_eq_zip, List.flatMap_map]
      simp only [ih]

theorem Sound.sharesBy_eq (h : t.Sound) :
    t.sharesBy (t.nodeWeight weights) = (t.activeWithin t.slots.size t.top).map fun y =>
      (t.clientOf y, t.odds weights y) := by
  have hshares := h.sharesWithin_eq hweights t.slots.size t.top
  rw [h.linked.odds_root] at hshares
  exact hshares

theorem Sound.shares_eq (h : t.Sound) (hcoherent : t.Coherent weights) :
    t.shares weights = (t.activeWithin t.slots.size t.top).map fun y =>
      (t.clientOf y, t.odds weights y) :=
  hcoherent.shares_eq.trans (h.sharesBy_eq hweights)

theorem nodeWeight_le_liveWeight (t : RoleTree α Rat) (hc : c ∈ (t.node p).children)
    (hleads : t.leadsToActive c = true) : t.nodeWeight weights c ≤ t.liveWeight weights p := by
  refine List.single_le_sum ?_ _ (List.mem_map_of_mem (List.mem_filter.mpr ⟨hc, hleads⟩))
  intro w hw
  obtain ⟨d, -, rfl⟩ := List.mem_map.mp hw
  exact t.nodeWeight_nonneg hweights d

theorem Linked.odds_mem (h : t.Linked []) (hids : t.Lineage x ids)
    (hleads : t.leadsToActive x = true) : 0 ≤ t.odds weights x ∧ t.odds weights x ≤ 1 := by
  induction hids with
  | root =>
    rw [h.odds_root]
    exact ⟨zero_le_one, le_rfl⟩
  | child _ hmem ih =>
    obtain ⟨hnonneg, hle⟩ := ih (h.leadsToActive_parent hmem hleads)
    obtain ⟨hnonneg', hle'⟩ := proportion_mem (t.nodeWeight_nonneg hweights _)
      (t.nodeWeight_le_liveWeight hweights hmem hleads)
    rw [h.odds_child hmem]
    exact ⟨mul_nonneg hnonneg hnonneg', mul_le_one₀ hle hnonneg' hle'⟩

theorem Linked.sum_odds_children (h : t.Linked []) (hpasses : t.PassesOn weights)
    (hkind : (t.node x).kind = .internal) (hleads : t.leadsToActive x = true) :
    (((t.node x).children.filter t.leadsToActive).map (t.odds weights)).sum =
      t.odds weights x := by
  obtain ⟨c, hc, hcleads, hpositive⟩ := hpasses x hkind hleads
  have htotal : t.liveWeight weights x ≠ 0 :=
    (hpositive.trans_le (t.nodeWeight_le_liveWeight hweights hc hcleads)).ne'
  have hparts : ((t.node x).children.filter t.leadsToActive).map (t.odds weights) =
      ((t.node x).children.filter t.leadsToActive).map fun c =>
        t.odds weights x * proportion (t.liveWeight weights x) (t.nodeWeight weights c) := by
    apply List.map_congr_left
    exact fun c hc => h.odds_child (List.mem_filter.mp hc).1
  have hsum := sum_proportion htotal
  rw [List.map_map] at hsum
  rw [hparts, List.sum_map_mul_left]
  exact (congrArg (t.odds weights x * ·) hsum).trans (mul_one _)

theorem Linked.sum_odds (h : t.Linked []) (hpasses : t.PassesOn weights)
    {depth : Nat} (hx : t.Live x)
    (hdepth : t.slots.size ≤ depth + RolePath.depth (t.node x).path)
    (hleads : t.leadsToActive x = true) :
    ((t.activeWithin depth x).map (t.odds weights)).sum = t.odds weights x := by
  induction depth generalizing x with
  | zero =>
    have hlt := h.depth_lt_size hx
    omega
  | succ depth ih =>
    cases hkind : (t.node x).kind with
    | inactive =>
      exact absurd hkind (h.kind_ne_inactive hleads)
    | active => rw [h.activeWithin_leaf hkind, List.map_singleton, List.sum_singleton]
    | internal =>
      rw [h.activeWithin_succ hkind, List.map_flatMap, List.flatMap_def, List.sum_flatten,
        List.map_map, ← h.sum_odds_children hweights hpasses hkind hleads]
      congr 1
      apply List.map_congr_left
      intro c hc
      obtain ⟨hmem, hcleads⟩ := List.mem_filter.mp hc
      have hchild := h.depth_child hmem
      exact ih (h.down hmem).1 (by omega) hcleads

end Nonneg

end RoleLottery.RoleTree
