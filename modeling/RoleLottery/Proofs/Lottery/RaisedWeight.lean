import Mathlib.Algebra.Order.BigOperators.GroupWithZero.List
import RoleLottery.Proofs.Lottery.Odds
import RoleLottery.Proofs.Lottery.Refusals
import RoleLottery.Proofs.RoleTree.ActiveRoles

/-!
# Raising a weight

A larger weight for a path raises the portion of the node with that path and lowers those of its
siblings. The odds of the clients at or below the node grow with it, and no others do.
-/

namespace RoleLottery

open RoleTree (configured Lineage)

variable {α : Type} {t : RoleTree α Rat} {weights weights' : Table Rat} {path : String}
  {x y v p c d : NodeId} {ids : List NodeId}

/-- The weights differ for one path only, where the second ones are no smaller. -/
structure Raises (weights weights' : Table Rat) (path : String) : Prop where
  proper : ProperWeights weights
  proper' : ProperWeights weights'
  le : configured weights path ≤ configured weights' path
  same : ∀ other, other ≠ path → configured weights' other = configured weights other

namespace RoleTree

theorem Linked.eq_of_parent_eq (h : t.Linked []) (hids : t.Lineage x ids) (hc : c ∈ ids)
    (hd : d ∈ ids) (hparents : (t.node c).parent = (t.node d).parent) : c = d := by
  induction hids with
  | root => rw [List.mem_singleton.mp hc, List.mem_singleton.mp hd]
  | @child q e ids hq hmem ih =>
    have hparent := (h.down hmem).2.2.1
    -- The path of a child of `q` is longer than any path above.
    have habove {z : NodeId} (hz : z ∈ ids) : (t.node z).parent ≠ some q := by
      intro hzparent
      obtain ⟨hlive, hle⟩ := h.lineage_mem hq z hz
      have hlt := h.length_path_lt (h.mem_children_of_parent hlive hzparent)
      omega
    rcases List.mem_cons.mp hc with hce | hc <;> rcases List.mem_cons.mp hd with hde | hd
    · rw [hce, hde]
    · rw [hce, hparent] at hparents
      exact absurd hparents.symm (habove hd)
    · rw [hde, hparent] at hparents
      exact absurd hparents (habove hc)
    · exact ih hc hd

theorem Linked.leadsToActive_of_mem (h : t.Linked []) (hkind : (t.node y).kind = .active)
    (hids : t.Lineage y ids) (hx : x ∈ ids) : t.leadsToActive x = true :=
  h.leadsToActive_iff.mpr ⟨y, ids, hkind, hids, hx⟩

theorem Linked.portion_nonneg (h : t.Linked []) (hweights : ProperWeights weights)
    (hleads : t.leadsToActive x = true) : 0 ≤ t.portion weights x := by
  unfold portion
  cases hparent : (t.node x).parent with
  | none => exact zero_le_one
  | some p =>
    have hx : t.Live x := by
      by_contra hdead
      rw [node_of_not_live hdead] at hparent
      exact absurd hparent (by simp [default, bareNode])
    have hmem := h.mem_children_of_parent hx hparent
    exact (proportion_mem (t.nodeWeight_nonneg hweights.nonneg x)
      (t.nodeWeight_le_liveWeight hweights.nonneg hmem hleads)).1

end RoleTree

namespace Raises

/-- The portion of a node does not change when no live sibling, nor the node itself, has the
path. -/
theorem portion_eq (r : Raises weights weights' path) (h : t.Linked [])
    (hleads : t.leadsToActive c = true)
    (hpath : ∀ d, (t.node d).parent = (t.node c).parent → t.leadsToActive d = true →
      (t.node d).path ≠ path) : t.portion weights' c = t.portion weights c := by
  unfold RoleTree.portion
  cases hparent : (t.node c).parent with
  | none => rfl
  | some p =>
    have hweight : t.nodeWeight weights' c = t.nodeWeight weights c :=
      r.same _ (hpath c rfl hleads)
    have htotal : t.liveWeight weights' p = t.liveWeight weights p := by
      unfold RoleTree.liveWeight
      congr 1
      apply List.map_congr_left
      intro d hd
      obtain ⟨hmem, hdleads⟩ := List.mem_filter.mp hd
      exact r.same _ (hpath d ((h.down hmem).2.2.1.trans hparent.symm) hdleads)
    simp only [hweight, htotal]

theorem exists_rest (r : Raises weights weights' path) (h : t.Linked [])
    (hv : v ∈ (t.node p).children) (hleads : t.leadsToActive v = true)
    (hpath : (t.node v).path = path) : ∃ rest, 0 ≤ rest ∧
      t.liveWeight weights p = t.nodeWeight weights v + rest ∧
      t.liveWeight weights' p = t.nodeWeight weights' v + rest := by
  have hmem : v ∈ (t.node p).children.filter t.leadsToActive := List.mem_filter.mpr ⟨hv, hleads⟩
  have hnodup : ((t.node p).children.filter t.leadsToActive).Nodup := (h.apart p).of_map.filter _
  have hperm := List.perm_cons_erase hmem
  refine ⟨((((t.node p).children.filter t.leadsToActive).erase v).map (t.nodeWeight weights)).sum,
    ?_, ?_, ?_⟩
  · apply List.sum_nonneg
    intro w hw
    obtain ⟨d, -, rfl⟩ := List.mem_map.mp hw
    exact t.nodeWeight_nonneg r.proper.nonneg d
  · rw [RoleTree.liveWeight, (hperm.map _).sum_eq, List.map_cons, List.sum_cons]
  · rw [RoleTree.liveWeight, (hperm.map _).sum_eq, List.map_cons, List.sum_cons]
    congr 2
    apply List.map_congr_left
    intro d hd
    obtain ⟨hne, hd⟩ := hnodup.mem_erase_iff.mp hd
    have hdmem := (List.mem_filter.mp hd).1
    refine r.same _ fun hdpath => hne ?_
    exact h.path_injective (h.down hdmem).1 (h.down hv).1 (hdpath.trans hpath.symm)

theorem portion_le (r : Raises weights weights' path) (h : t.Linked []) (hv : t.Live v)
    (hleads : t.leadsToActive v = true) (hpath : (t.node v).path = path) :
    t.portion weights v ≤ t.portion weights' v := by
  unfold RoleTree.portion
  cases hparent : (t.node v).parent with
  | none => exact le_rfl
  | some p =>
    obtain ⟨rest, hrest, htotal, htotal'⟩ :=
      r.exists_rest h (h.mem_children_of_parent hv hparent) hleads hpath
    simp only [htotal, htotal']
    refine proportion_le_raised hrest (t.nodeWeight_nonneg r.proper.nonneg v) ?_
    rw [RoleTree.nodeWeight, RoleTree.nodeWeight, hpath]
    exact r.le

theorem portion_anti (r : Raises weights weights' path) (h : t.Linked []) (hv : t.Live v)
    (hleads : t.leadsToActive v = true) (hpath : (t.node v).path = path) (hc : t.Live c)
    (hcleads : t.leadsToActive c = true) (hparents : (t.node c).parent = (t.node v).parent)
    (hne : c ≠ v) : t.portion weights' c ≤ t.portion weights c := by
  have hweight : t.nodeWeight weights' c = t.nodeWeight weights c :=
    r.same _ fun hcpath => hne (h.path_injective hc hv (hcpath.trans hpath.symm))
  unfold RoleTree.portion
  cases hparent : (t.node c).parent with
  | none => exact le_rfl
  | some p =>
    obtain ⟨rest, -, htotal, htotal'⟩ := r.exists_rest h
      (h.mem_children_of_parent hv (hparents.symm.trans hparent)) hleads hpath
    simp only [hweight]
    refine proportion_anti (t.nodeWeight_nonneg r.proper.nonneg c)
      (t.nodeWeight_le_liveWeight r.proper.nonneg (h.mem_children_of_parent hc hparent) hcleads) ?_
    rw [htotal, htotal', RoleTree.nodeWeight, RoleTree.nodeWeight, hpath]
    exact add_le_add_left r.le rest

/-! ## Odds -/

theorem odds_eq (r : Raises weights weights' path) (h : t.Linked [])
    (hidle : ¬ ∃ x, (t.node x).path = path ∧ t.leadsToActive x = true)
    (hkind : (t.node y).kind = .active) : t.odds weights' y = t.odds weights y := by
  obtain ⟨ids, hids⟩ := h.exists_lineage (RoleTree.live_of_active hkind)
  rw [h.odds_eq_prod hids, h.odds_eq_prod hids]
  congr 1
  apply List.map_congr_left
  intro c hc
  exact r.portion_eq h (h.leadsToActive_of_mem hkind hids hc)
    fun d _ hleads hpath => hidle ⟨d, hpath, hleads⟩

theorem portion_eq_of_parent (r : Raises weights weights' path) (h : t.Linked []) (hv : t.Live v)
    (hpath : (t.node v).path = path) (hc : t.leadsToActive c = true)
    (hparents : (t.node c).parent ≠ (t.node v).parent) :
    t.portion weights' c = t.portion weights c := by
  refine r.portion_eq h hc fun d hd hleads hdpath => hparents ?_
  obtain ⟨z, ids, hkind, hids, hmem⟩ := h.leadsToActive_iff.mp hleads
  have hlive := (h.lineage_mem hids d hmem).1
  rw [← hd, h.path_injective hlive hv (hdpath.trans hpath.symm)]

theorem odds_le_of_mem (r : Raises weights weights' path) (h : t.Linked [])
    (hpath : (t.node v).path = path) (hkind : (t.node y).kind = .active)
    (hids : t.Lineage y ids) (hv : v ∈ ids) : t.odds weights y ≤ t.odds weights' y := by
  have hlive := (h.lineage_mem hids v hv).1
  rw [h.odds_eq_prod hids, h.odds_eq_prod hids]
  apply List.prod_map_le_prod_map₀
  · exact fun c hc => h.portion_nonneg r.proper (h.leadsToActive_of_mem hkind hids hc)
  · intro c hc
    have hleads := h.leadsToActive_of_mem hkind hids hc
    by_cases hcv : c = v
    · subst hcv
      exact r.portion_le h hlive hleads hpath
    · have hparents := fun he => hcv (h.eq_of_parent_eq hids hc hv he)
      exact (r.portion_eq_of_parent h hlive hpath hleads hparents).ge

theorem odds_le_of_not_mem (r : Raises weights weights' path) (h : t.Linked []) (hv : t.Live v)
    (hleads : t.leadsToActive v = true) (hpath : (t.node v).path = path)
    (hkind : (t.node y).kind = .active) (hids : t.Lineage y ids) (hmem : v ∉ ids) :
    t.odds weights' y ≤ t.odds weights y := by
  rw [h.odds_eq_prod hids, h.odds_eq_prod hids]
  apply List.prod_map_le_prod_map₀
  · exact fun c hc => h.portion_nonneg r.proper' (h.leadsToActive_of_mem hkind hids hc)
  · intro c hc
    have hcleads := h.leadsToActive_of_mem hkind hids hc
    by_cases hparents : (t.node c).parent = (t.node v).parent
    · have hlive := (h.lineage_mem hids c hc).1
      exact r.portion_anti h hv hleads hpath hlive hcleads hparents fun he => hmem (he ▸ hc)
    · exact (r.portion_eq_of_parent h hv hpath hcleads hparents).le

/-- The odds of a client at or below the path do not fall, and the others do not grow. -/
theorem odds_le (r : Raises weights weights' path) (h : t.Sound) {names : List String}
    (hsplit : RolePath.split path = .ok names) (hkind : (t.node y).kind = .active) :
    ((t.clientOf y = path ∨ RolePath.Extends (t.clientOf y) path) →
      t.odds weights y ≤ t.odds weights' y) ∧
    (¬ (t.clientOf y = path ∨ RolePath.Extends (t.clientOf y) path) →
      t.odds weights' y ≤ t.odds weights y) := by
  have hlinked := h.linked
  obtain ⟨ids, hids⟩ := hlinked.exists_lineage (RoleTree.live_of_active hkind)
  by_cases hactive : ∃ v, (t.node v).path = path ∧ t.leadsToActive v = true
  · obtain ⟨v, hpath, hleads⟩ := hactive
    obtain ⟨z, above, -, habove, hmem⟩ := hlinked.leadsToActive_iff.mp hleads
    have hv := (hlinked.lineage_mem habove v hmem).1
    have hroot : v ≠ t.top := by
      rintro rfl
      rw [hlinked.root_path] at hpath
      exact (RolePath.of_split_eq_ok hsplit).1 hpath.symm
    have hname : (t.node v).name ≠ RolePath.ownLeaf := by
      obtain ⟨p, -, hp⟩ := hlinked.up hv hroot List.not_mem_nil
      rw [← hpath, (hlinked.down hp).2.2.2] at hsplit
      exact RolePath.ne_own_of_split_eq_ok hsplit (hlinked.named hv hroot)
    have hbelow := h.mem_lineage_iff_client (h.client?_of_active hkind) hids hv hroot hname
    rw [hpath] at hbelow
    rw [← hbelow]
    exact ⟨r.odds_le_of_mem hlinked hpath hkind hids,
      r.odds_le_of_not_mem hlinked hv hleads hpath hkind hids⟩
  · rw [r.odds_eq hlinked hactive hkind]
    exact ⟨fun _ => le_rfl, fun _ => le_rfl⟩

end Raises

/-- The shares after a weight is raised, beside those before. -/
structure Grown (t : RoleTree α Rat) (path : String) (shares shares' : List (String × Rat)) :
    Prop where
  clients : shares'.map (·.1) = shares.map (·.1)
  below : ∀ client share share', (client, share) ∈ shares → (client, share') ∈ shares' →
    client = path ∨ RolePath.Extends client path → share ≤ share'
  apart : ∀ client share share', (client, share) ∈ shares → (client, share') ∈ shares' →
    ¬ (client = path ∨ RolePath.Extends client path) → share' ≤ share
  idle : (¬ ∃ x, (t.node x).path = path ∧ t.leadsToActive x = true) → shares' = shares

theorem Grown.of_leaves (h : t.Sound) {part part' : NodeId → Rat}
    (hparts : ∀ y, (t.node y).kind = .active →
      ((t.clientOf y = path ∨ RolePath.Extends (t.clientOf y) path) → part y ≤ part' y) ∧
      (¬ (t.clientOf y = path ∨ RolePath.Extends (t.clientOf y) path) → part' y ≤ part y))
    (hidle : (¬ ∃ x, (t.node x).path = path ∧ t.leadsToActive x = true) →
      ∀ y, (t.node y).kind = .active → part' y = part y) :
    Grown t path ((t.activeWithin t.slots.size t.top).map fun y => (t.clientOf y, part y))
      ((t.activeWithin t.slots.size t.top).map fun y => (t.clientOf y, part' y)) := by
  -- A client stands for one leaf in both lists.
  have hleaf {client : String} {share share' : Rat}
      (hshare : (client, share) ∈ (t.activeWithin t.slots.size t.top).map
        fun y => (t.clientOf y, part y))
      (hshare' : (client, share') ∈ (t.activeWithin t.slots.size t.top).map
        fun y => (t.clientOf y, part' y)) :
      ∃ y, (t.node y).kind = .active ∧ t.clientOf y = client ∧ share = part y ∧
        share' = part' y := by
    obtain ⟨y, hy, heq⟩ := List.mem_map.mp hshare
    obtain ⟨z, hz, heq'⟩ := List.mem_map.mp hshare'
    obtain ⟨hclient, rfl⟩ := Prod.mk.inj heq
    obtain ⟨hclient', rfl⟩ := Prod.mk.inj heq'
    obtain rfl := List.inj_on_of_nodup_map h.nodup_activeClients hy hz
      (hclient.trans hclient'.symm)
    exact ⟨y, h.linked.mem_activeWithin_root.mp hy, hclient, rfl, rfl⟩
  constructor
  case clients => simp only [List.map_map, Function.comp_def]
  case below =>
    intro client share share' hshare hshare' hclient
    obtain ⟨y, hkind, rfl, rfl, rfl⟩ := hleaf hshare hshare'
    exact (hparts y hkind).1 hclient
  case apart =>
    intro client share share' hshare hshare' hclient
    obtain ⟨y, hkind, rfl, rfl, rfl⟩ := hleaf hshare hshare'
    exact (hparts y hkind).2 hclient
  case idle =>
    intro hnone
    apply List.map_congr_left
    intro y hy
    rw [hidle hnone y (h.linked.mem_activeWithin_root.mp hy)]

namespace Lottery

variable {γ : Type} {l l' : Lottery α Rat γ} {raised : Rat}

theorem shares_of_setWeight (h : Weighed l.tree l.weights)
    (hl : l.setWeight path raised = .ok l') : ∃ names, RolePath.split path = .ok names ∧
      0 ≤ raised ∧ l'.weights = l.weights.insert path raised ∧
      l'.tree.shares l'.weights = (l.tree.activeWithin l.tree.slots.size l.tree.top).map
        fun y => (l.tree.clientOf y, l.tree.odds l'.weights y) := by
  unfold Lottery.setWeight at hl
  split at hl
  · cases hl
  · rename_i names hnames
    split at hl
    · cases hl
    · rename_i hweight
      have hnonneg : 0 ≤ raised := by
        simpa [Weight.isFinite] using hweight
      have hproper := h.toProperWeights.insert hnames hnonneg
      have hcoherent :=
        h.coherent.setWeight h.sound.linked (RolePath.of_split_eq_ok hnames).1 raised
      have hplain (id : NodeId) :
          (l.tree.forgetWeights id).plainShares (l.weights.insert path raised) =
            l.tree.plainShares (l.weights.insert path raised) := by
        rw [← plainShares_tree dropWeights, dropWeights_forgetWeights, plainShares_tree]
      cases hl
      refine ⟨names, hnames, hnonneg, rfl,
        hcoherent.shares_eq.trans (Eq.trans ?_ (h.sound.sharesBy_eq hproper.nonneg))⟩
      split
      · exact hplain _
      · rfl

theorem grown_of_setWeight (h : Weighed l.tree l.weights)
    (hl : l.setWeight path raised = .ok l') (hle : configured l.weights path ≤ raised) :
    Grown l.tree path (l.tree.shares l.weights) (l'.tree.shares l'.weights) := by
  obtain ⟨names, hsplit, hnonneg, hweights, hshares⟩ := shares_of_setWeight h hl
  have r : Raises l.weights l'.weights path := by
    rw [hweights]
    constructor
    case proper => exact h.toProperWeights
    case proper' => exact h.toProperWeights.insert hsplit hnonneg
    case le => rwa [RoleTree.configured_insert, if_pos rfl]
    case same =>
      intro other hother
      rw [RoleTree.configured_insert, if_neg (Ne.symm hother)]
  rw [hshares, h.shares_eq]
  exact Grown.of_leaves h.sound (fun y hkind => r.odds_le h.sound hsplit hkind)
    fun hidle y hkind => r.odds_eq h.sound.linked hidle hkind

variable [Amount α] [RaceTime Rat] [WordSource γ]

/-- After any run, raising the weight of a path takes no share from the active clients at or below
it and adds none to the others. Nothing changes when none at or below the path are active. -/
theorem shares_of_raised (settings : Settings) (g : γ) (calls : List (Call α Rat)) (path : String)
    (raised : Rat) (h : configured (after settings g calls).weights path ≤ raised) :
    let l := after settings g calls
    let l' := (step attempt l (.setWeight path raised)).2
    ((∃ names, RolePath.split path = .ok names) →
      l.setWeight path raised = .ok l' ∧ configured l'.weights path = raised) ∧
    Grown l.tree path (l.tree.shares l.weights) (l'.tree.shares l'.weights) := by
  intro l l'
  have hweighed : Weighed l.tree l.weights := weighed_after settings g calls
  cases hset : l.setWeight path raised with
  | error e =>
    have hl' : l' = l := by
      simp only [l', step, attempt, hset, silent, Except.map]
    rw [hl']
    constructor
    · rintro ⟨names, hsplit⟩
      -- Neither the path nor the weight is at fault.
      have hnonneg : 0 ≤ raised :=
        (RoleTree.configured_of_forall zero_le_one hweighed.nonneg path).trans h
      rcases setWeight_refused_iff.mp hset with ⟨fault, hfault, -⟩ | ⟨-, hfinite | hlt, -⟩
      · rw [← RolePath.split_eq_error_iff, hsplit] at hfault
        cases hfault
      · cases hfinite
      · exact absurd hnonneg (by simpa using hlt)
    · rw [hweighed.shares_eq]
      exact Grown.of_leaves hweighed.sound (fun _ _ => ⟨fun _ => le_rfl, fun _ => le_rfl⟩)
        fun _ _ _ => rfl
  | ok next =>
    have hl' : l' = next := by
      simp only [l', step, attempt, hset, silent, Except.map]
    rw [hl']
    obtain ⟨-, -, -, hweights, -⟩ := shares_of_setWeight hweighed hset
    refine ⟨fun _ => ⟨rfl, ?_⟩, grown_of_setWeight hweighed hset h⟩
    rw [hweights, RoleTree.configured_insert, if_pos rfl]

def weightlessCalls : List (Call Int Rat) :=
  [.add "a/b", .add "a/c", .add "d", .activate "a/b", .activate "a/c", .activate "d",
    .setWeight "a/b" 0, .setWeight "a/c" 0]

omit [RaceTime Rat] [Amount α] [WordSource γ] in
/-- The role passes nothing on until one of its clients gets a weight. -/
theorem shares_of_raised_weightless :
    letI : RaceTime Rat := ⟨fun _ _ => 0⟩
    let l := after .default (Keystream.ofSeed 0) weightlessCalls
    let l' := (step attempt l (.setWeight "a/b" 2)).2
    configured l.weights "a/b" ≤ 2 ∧ RolePath.split "a/b" = .ok ["a", "b"] ∧
    l.setWeight "a/b" 2 = .ok l' ∧
    l.tree.shares l.weights = [("d", 1 / 2), ("a/c", 0), ("a/b", 0)] ∧
    l'.tree.shares l'.weights = [("d", 1 / 2), ("a/c", 0), ("a/b", 1 / 2)] ∧
    Grown l.tree "a/b" (l.tree.shares l.weights) (l'.tree.shares l'.weights) := by
  let _ : RaceTime Rat := ⟨fun _ _ => 0⟩
  have hle :
      configured (after .default (Keystream.ofSeed 0) weightlessCalls).weights "a/b" ≤ 2 := by
    decide +kernel
  have hsplit : RolePath.split "a/b" = .ok ["a", "b"] := by
    decide +kernel
  obtain ⟨hset, hgrown⟩ :=
    shares_of_raised .default (Keystream.ofSeed 0) weightlessCalls "a/b" 2 hle
  exact ⟨hle, hsplit, (hset ⟨_, hsplit⟩).1, by decide +kernel, by decide +kernel, hgrown⟩

end Lottery

end RoleLottery
