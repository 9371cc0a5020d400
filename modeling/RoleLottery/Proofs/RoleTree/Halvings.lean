import RoleLottery.Proofs.Binary64.Portions
import RoleLottery.Proofs.RoleTree.Odds

/-!
# Shares that do not vanish

In double precision every share is a number up to one. On the way down to a node the share of the
root is halved at most as often as the weights and the numbers of the siblings take, and as long as
this is not below the least double, the share of the node is positive.
-/

namespace RoleLottery.RoleTree

open Binary64

variable {α : Type} {t : RoleTree α Float} {weights : Table Float} {p c x : NodeId}

def liveWeights (t : RoleTree α Float) (weights : Table Float) (p : NodeId) : List Float :=
  ((t.node p).children.filter t.leadsToActive).map fun c => configured weights (t.node c).path

/-- How often the share of its parent is halved at most on the way to a node. -/
def halvings (t : RoleTree α Float) (weights : Table Float) (x : NodeId) : Nat :=
  match (t.node x).parent with
  | none => 0
  | some p => halvingsAmong (t.liveWeights weights p) (configured weights (t.node x).path)

/-- How often the share of the root is halved at most on the way down to a node. -/
def totalHalvings (t : RoleTree α Float) (weights : Table Float) (x : NodeId) : Nat :=
  ((t.lineUp t.slots.size x).map (t.halvings weights)).sum

theorem Linked.totalHalvings_eq_sum (h : t.Linked []) {ids : List NodeId}
    (hids : t.Lineage x ids) :
    t.totalHalvings weights x = (ids.map (t.halvings weights)).sum := by
  rw [totalHalvings, h.lineUp_eq hids (h.rooted.length_lineage_le hids)]

theorem Linked.totalHalvings_root (h : t.Linked []) : t.totalHalvings weights t.top = 0 := by
  rw [h.totalHalvings_eq_sum .root, List.map_singleton, List.sum_singleton, halvings,
    h.root_parent]

theorem Linked.totalHalvings_child (h : t.Linked []) (hc : c ∈ (t.node p).children) :
    t.totalHalvings weights c = t.totalHalvings weights p +
      halvingsAmong (t.liveWeights weights p) (configured weights (t.node c).path) := by
  obtain ⟨ids, hids⟩ := h.exists_lineage (live_of_mem_children hc)
  rw [h.totalHalvings_eq_sum (.child hids hc), List.map_cons, List.sum_cons,
    ← h.totalHalvings_eq_sum hids, halvings, (h.down hc).2.2.1, Nat.add_comm]

section Positive

variable (hweights : ∀ path w, weights.get? path = some w → w.isFinite = true ∧ 0 < w)

include hweights

theorem configured_positive (path : String) :
    (configured weights path).isFinite = true ∧ 0 < configured weights path :=
  configured_of_forall (motive := fun w : Float => w.isFinite = true ∧ 0 < w)
    (by decide +kernel) hweights path

theorem Sound.exists_halved (h : t.Sound) {depth : Nat} {share : Float}
    (hshare : Halved (t.totalHalvings weights x) share) {e : String × Float}
    (he : e ∈ t.sharesWithin (fun id => configured weights (t.node id).path) t.live depth x share) :
    ∃ y ∈ t.activeWithin depth x, e.1 = t.clientOf y ∧
      Halved (t.totalHalvings weights y) e.2 := by
  induction depth generalizing x share with
  | zero => exact absurd he List.not_mem_nil
  | succ depth ih =>
    rw [sharesWithin] at he
    cases hkind : (t.node x).kind with
    | inactive =>
      rw [hkind] at he
      exact absurd he List.not_mem_nil
    | active =>
      rw [hkind] at he
      rw [h.linked.activeWithin_leaf hkind]
      rw [List.mem_singleton.mp he]
      exact ⟨x, List.mem_cons_self, rfl, hshare⟩
    | internal =>
      rw [hkind] at he
      dsimp only at he
      have hlive : ∀ w ∈ t.liveWeights weights x, w.isFinite = true ∧ 0 < w := by
        intro w hw
        obtain ⟨c, -, rfl⟩ := List.mem_map.mp hw
        exact configured_positive hweights _
      obtain ⟨f, hdivide, hparts⟩ := hshare.exists_divide_eq hlive
      rw [h.liveChildren_eq] at he
      rw [liveWeights] at hdivide
      rw [hdivide, List.map_map, ← List.map_prod_left_eq_zip, List.flatMap_map] at he
      obtain ⟨c, hc, he⟩ := List.mem_flatMap.mp he
      have hpart := hparts _ (List.mem_map_of_mem hc)
      rw [← h.linked.totalHalvings_child (List.mem_filter.mp hc).1] at hpart
      obtain ⟨y, hy, hclient, hhalved⟩ := ih hpart he
      rw [h.linked.activeWithin_succ hkind]
      exact ⟨y, List.mem_flatMap.mpr ⟨c, hc, hy⟩, hclient, hhalved⟩

/-- The share of a client is positive where the least double allows for the halvings on the way. -/
theorem Sound.share_pos (h : t.Sound) (hcoherent : t.Coherent weights) {client : String}
    {share : Float} (hmem : (client, share) ∈ t.shares weights)
    (hclient : t.client? client = some x) (hhalvings : t.totalHalvings weights x ≤ 1074) :
    0 < share := by
  rw [hcoherent.shares_eq] at hmem
  have hone : Halved (t.totalHalvings weights t.top) Weight.one := by
    rw [h.linked.totalHalvings_root]
    exact halved_one
  obtain ⟨y, hy, rfl, hhalved⟩ := h.exists_halved hweights hone hmem
  have hleaf := h.client?_of_active (h.linked.mem_activeWithin_root.mp hy)
  obtain rfl := Option.some.inj (hclient.symm.trans hleaf)
  exact hhalved.pos hhalvings

end Positive

end RoleLottery.RoleTree
