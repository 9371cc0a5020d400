import RoleLottery.Proofs.Lottery.Odds
import RoleLottery.Proofs.RoleTree.ActiveRoles

/-!
# Lotteries with the same active clients

Inactive clients can make a role out of the leaf of an active one, and they stand among the
siblings. They take no part in the odds, and weights below which no client is active do not matter.
-/

namespace RoleLottery

variable {α : Type} {t t' : RoleTree α Rat} {weights weights' : Table Rat}

/-- The same clients are active, and their roles have the same weights. -/
structure SameActive (t : RoleTree α Rat) (weights : Table Rat) (t' : RoleTree α Rat)
    (weights' : Table Rat) : Prop where
  clients : ∀ client, t.IsActiveClient client ↔ t'.IsActiveClient client
  weights : ∀ path, t.IsActiveRole path →
    RoleTree.configured weights path = RoleTree.configured weights' path

namespace RoleTree

theorem Linked.liveWeight_eq (h : t.Linked []) (p : NodeId) :
    t.liveWeight weights p = ((t.liveNames p).map fun name =>
      configured weights (RolePath.join (t.node p).path name)).sum := by
  rw [liveWeight, liveNames, List.map_map]
  congr 1
  apply List.map_congr_left
  intro c hc
  rw [nodeWeight, (h.down (List.mem_filter.mp hc).1).2.2.2]
  rfl

end RoleTree

namespace SameActive

open RoleTree

variable {x y p q : NodeId} {ids : List NodeId} {client : String}

theorem isActiveRole_iff (s : SameActive t weights t' weights') (path : String) :
    t.IsActiveRole path ↔ t'.IsActiveRole path := by
  simp only [IsActiveRole, s.clients]

theorem symm (s : SameActive t weights t' weights') : SameActive t' weights' t weights where
  clients client := (s.clients client).symm
  weights path hpath := (s.weights path ((s.isActiveRole_iff path).mpr hpath)).symm

/-! ## Roles -/

theorem liveNames_perm (s : SameActive t weights t' weights') (h : t.Sound) (h' : t'.Sound)
    (hp : t.Live p) (hpkind : (t.node p).kind = .internal) (hq : t'.Live q)
    (hqkind : (t'.node q).kind = .internal) (hpath : (t'.node q).path = (t.node p).path) :
    (t.liveNames p).Perm (t'.liveNames q) := by
  rw [List.perm_ext_iff_of_nodup (h.linked.nodup_liveNames p) (h'.linked.nodup_liveNames q)]
  intro name
  rw [h.mem_liveNames_iff hp hpkind, h'.mem_liveNames_iff hq hqkind, hpath, s.clients,
    s.isActiveRole_iff]

theorem liveWeight_eq (s : SameActive t weights t' weights') (h : Weighed t weights)
    (h' : Weighed t' weights') (hp : t.Live p) (hpkind : (t.node p).kind = .internal)
    (hq : t'.Live q) (hqkind : (t'.node q).kind = .internal)
    (hpath : (t'.node q).path = (t.node p).path) :
    t.liveWeight weights p = t'.liveWeight weights' q := by
  have hnames := s.liveNames_perm h.sound h'.sound hp hpkind hq hqkind hpath
  rw [h.sound.linked.liveWeight_eq, h'.sound.linked.liveWeight_eq, hpath, ← (hnames.map _).sum_eq]
  congr 1
  apply List.map_congr_left
  intro name hname
  rw [h.sound.mem_liveNames_iff hp hpkind] at hname
  rcases hname with ⟨rfl, -, -⟩ | ⟨-, -, hrole⟩
  · rw [h.configured_own, h'.configured_own]
  · exact s.weights _ hrole

theorem odds_eq (s : SameActive t weights t' weights') (h : Weighed t weights)
    (h' : Weighed t' weights') (hids : t.Lineage x ids) (hleads : t.leadsToActive x = true)
    (hname : (t.node x).name ≠ RolePath.ownLeaf) (hy : t'.Live y)
    (hpath : (t'.node y).path = (t.node x).path) : t.odds weights x = t'.odds weights' y := by
  have hlinked := h.sound.linked
  have hlinked' := h'.sound.linked
  induction hids generalizing y with
  | root =>
    obtain rfl := hlinked'.path_injective hy hlinked'.root_live
      (hpath.trans (hlinked.root_path.trans hlinked'.root_path.symm))
    rw [hlinked.odds_root, hlinked'.odds_root]
  | @child p c ids hp hmem ih =>
    obtain ⟨hc, -, hparent, -⟩ := hlinked.down hmem
    obtain ⟨-, ⟨hnone, -⟩ | ⟨p', q, hp', -, -, hymem, hqpath⟩⟩ :=
      hlinked.of_path_eq hlinked' hc hy hpath
    · rw [hparent] at hnone
      exact absurd hnone (by simp)
    · obtain rfl := Option.some.inj (hparent.symm.trans hp')
      have hplive := live_of_mem_children hmem
      have hqlive := live_of_mem_children hymem
      have hrole := (h.sound.leadsToActive_iff_role hc (hlinked.child_ne_root hmem) hname).mp hleads
      have hweight : t.nodeWeight weights c = t'.nodeWeight weights' y := by
        rw [nodeWeight, nodeWeight, hpath, s.weights _ hrole]
      rw [hlinked.odds_child hmem, hlinked'.odds_child hymem, hweight,
        ih (hlinked.leadsToActive_parent hmem hleads) (hlinked.name_ne_of_child hmem) hqlive hqpath,
        s.liveWeight_eq h h' hplive (hlinked.kind_of_child hmem) hqlive
          (hlinked'.kind_of_child hymem) hqpath]

/-! ## Leaves -/

/-- Nothing but the client's own leaf is live below a role that is a leaf in the other tree. -/
theorem liveNames_own (s : SameActive t weights t' weights') (h : t.Sound) (h' : t'.Sound)
    (hx : t.Live x) (hleaf : (t.node x).kind.isLeaf) (hy : y ∈ (t'.node q).children)
    (hname : (t'.node y).name = RolePath.ownLeaf) (hleads : t'.leadsToActive y = true)
    (hpath : (t'.node q).path = (t.node x).path) : t'.liveNames q = [RolePath.ownLeaf] := by
  have hq := live_of_mem_children hy
  have hqkind := h'.linked.kind_of_child hy
  rw [← List.perm_singleton,
    List.perm_ext_iff_of_nodup (h'.linked.nodup_liveNames q) (List.nodup_singleton _)]
  intro name
  rw [List.mem_singleton]
  constructor
  · intro hmem
    rcases (h'.mem_liveNames_iff hq hqkind).mp hmem with ⟨hown, -, -⟩ | ⟨-, hvalid, hrole⟩
    · exact hown
    · -- The other child would stand below the leaf.
      rw [hpath, ← s.isActiveRole_iff] at hrole
      obtain ⟨p, z, hz, hp, -, -⟩ := h.exists_child_of_role hvalid hrole
      obtain rfl := h.linked.path_injective (live_of_mem_children hz) hx hp
      exact absurd (h.linked.kind_of_child hz) (isLeaf_iff.mp hleaf)
  · rintro rfl
    exact mem_liveNames.mpr ⟨y, hy, hleads, hname⟩

/-- A client has the same odds with a plain leaf as with a leaf of its own below its role. -/
theorem odds_eq_own (s : SameActive t weights t' weights') (h : Weighed t weights)
    (h' : Weighed t' weights') (hkind : (t.node x).kind = .active)
    (hname : (t.node x).name ≠ RolePath.ownLeaf) (hykind : (t'.node y).kind = .active)
    (hyname : (t'.node y).name = RolePath.ownLeaf) (hy : y ∈ (t'.node q).children)
    (hpath : (t'.node q).path = (t.node x).path) : t.odds weights x = t'.odds weights' y := by
  have hlinked' := h'.sound.linked
  obtain ⟨ids, hids⟩ := h.sound.linked.exists_lineage (live_of_active hkind)
  have hleads := h.sound.linked.leadsToActive_of_active hkind
  have hnames := s.liveNames_own h.sound h'.sound (live_of_active hkind) (by rw [hkind]; decide) hy
    hyname (hlinked'.leadsToActive_of_active hykind) hpath
  have htotal : t'.liveWeight weights' q = 1 := by
    rw [hlinked'.liveWeight_eq, hnames, List.map_singleton, List.sum_singleton, h'.configured_own]
  have hwhole : proportion 1 1 = 1 := by simp [proportion]
  rw [s.odds_eq h h' hids hleads hname (live_of_mem_children hy) hpath, hlinked'.odds_child hy,
    htotal, h'.nodeWeight_own hlinked' hyname, hwhole, mul_one]

theorem odds_eq_of_client (s : SameActive t weights t' weights') (h : Weighed t weights)
    (h' : Weighed t' weights') (hclient : t.client? client = some x)
    (hkind : (t.node x).kind = .active) (hclient' : t'.client? client = some y)
    (hkind' : (t'.node y).kind = .active) : t.odds weights x = t'.odds weights' y := by
  have hlinked := h.sound.linked
  have hlinked' := h'.sound.linked
  -- In either tree the leaf has the path of its client or hangs below the role with that path.
  obtain ⟨hx, -, ⟨hname, hpath⟩ | ⟨hname, p, -, hmem, hpath, -⟩⟩ := h.sound.leaf_cases hclient <;>
    obtain ⟨hy, -, ⟨hname', hpath'⟩ | ⟨hname', q, -, hmem', hpath', -⟩⟩ :=
      h'.sound.leaf_cases hclient'
  · obtain ⟨ids, hids⟩ := hlinked.exists_lineage hx
    exact s.odds_eq h h' hids (hlinked.leadsToActive_of_active hkind) hname hy
      (hpath'.trans hpath.symm)
  · exact s.odds_eq_own h h' hkind hname hkind' hname' hmem' (hpath'.trans hpath.symm)
  · exact (s.symm.odds_eq_own h' h hkind' hname' hkind hname hmem (hpath.trans hpath'.symm)).symm
  · have hp := live_of_mem_children hmem
    have hq := live_of_mem_children hmem'
    obtain ⟨ids, hids⟩ := hlinked.exists_lineage hp
    have hleads := hlinked.leadsToActive_parent hmem (hlinked.leadsToActive_of_active hkind)
    have hpq := hpath'.trans hpath.symm
    rw [hlinked.odds_child hmem, hlinked'.odds_child hmem',
      s.odds_eq h h' hids hleads (hlinked.name_ne_of_child hmem) hq hpq,
      s.liveWeight_eq h h' hp (hlinked.kind_of_child hmem) hq (hlinked'.kind_of_child hmem') hpq,
      h.nodeWeight_own hlinked hname, h'.nodeWeight_own hlinked' hname']

theorem shares_perm (s : SameActive t weights t' weights') (h : Weighed t weights)
    (h' : Weighed t' weights') : (t.shares weights).Perm (t'.shares weights') := by
  rw [List.perm_ext_iff_of_nodup h.nodup_clients.of_map h'.nodup_clients.of_map]
  intro ⟨client, share⟩
  rw [h.mem_shares_iff, h'.mem_shares_iff]
  constructor
  · rintro ⟨x, hclient, hkind, rfl⟩
    obtain ⟨y, hclient', hkind'⟩ := (s.clients client).mp ⟨x, hclient, hkind⟩
    exact ⟨y, hclient', hkind', s.odds_eq_of_client h h' hclient hkind hclient' hkind'⟩
  · rintro ⟨y, hclient', hkind', rfl⟩
    obtain ⟨x, hclient, hkind⟩ := (s.clients client).mpr ⟨y, hclient', hkind'⟩
    exact ⟨x, hclient, hkind, (s.odds_eq_of_client h h' hclient hkind hclient' hkind').symm⟩

end SameActive

namespace Weighed

theorem isActiveClient_iff (h : Weighed t weights) (client : String) :
    t.IsActiveClient client ↔ client ∈ (t.shares weights).map (·.1) := by
  simp only [List.mem_map, Prod.exists, exists_and_right, exists_eq_right, h.mem_shares_iff]
  constructor
  · rintro ⟨x, hclient, hkind⟩
    exact ⟨_, x, hclient, hkind, rfl⟩
  · rintro ⟨share, x, hclient, hkind, -⟩
    exact ⟨x, hclient, hkind⟩

end Weighed

namespace Lottery

variable [Amount α] [RaceTime Rat] {γ δ : Type} [WordSource γ] [WordSource δ]

/-- After any two runs that leave the same clients active, with the same weights for them and the
roles above them, every active client has the same share. -/
theorem shares_of_active (settings settings' : Settings) (g : γ) (g' : δ)
    (calls calls' : List (Call α Rat))
    (hclients : ∀ client, (after settings g calls).tree.IsActiveClient client ↔
      (after settings' g' calls').tree.IsActiveClient client)
    (hweights : ∀ path, (after settings g calls).tree.IsActiveRole path →
      RoleTree.configured (after settings g calls).weights path =
        RoleTree.configured (after settings' g' calls').weights path) :
    let l := after settings g calls
    let l' := after settings' g' calls'
    (l.tree.shares l.weights).Perm (l'.tree.shares l'.weights) :=
  SameActive.shares_perm ⟨hclients, hweights⟩ (weighed_after settings g calls)
    (weighed_after settings' g' calls')

def plainCalls : List (Call Int Rat) :=
  [.add "a", .activate "a", .add "b", .activate "b", .setWeight "a" 3]

/-- The same with an inactive client below one of them, another elsewhere, and weights for both. -/
def idleCalls : List (Call Int Rat) :=
  [.add "c/d", .setWeight "c" 5, .add "b", .add "a", .activate "b", .setWeight "a" 3,
    .activate "a", .add "a/x", .setWeight "a/x" 9]

omit [RaceTime Rat] in
/-- The client `a` has its leaf below a role in the second run. -/
theorem shares_of_active_idle :
    letI : RaceTime Rat := ⟨fun _ _ => 0⟩
    let l := after .default (Keystream.ofSeed 0) plainCalls
    let l' := after .default (Keystream.ofSeed 1) idleCalls
    (∀ client, l.tree.IsActiveClient client ↔ l'.tree.IsActiveClient client) ∧
    (∀ path, l.tree.IsActiveRole path →
      RoleTree.configured l.weights path = RoleTree.configured l'.weights path) ∧
    l.tree.shares l.weights = [("b", 1 / 4), ("a", 3 / 4)] ∧
    l'.tree.shares l'.weights = [("a", 3 / 4), ("b", 1 / 4)] ∧
    (l.tree.shares l.weights).Perm (l'.tree.shares l'.weights) := by
  let _ : RaceTime Rat := ⟨fun _ _ => 0⟩
  have hshares : (after .default (Keystream.ofSeed 0) plainCalls).tree.shares
      (after .default (Keystream.ofSeed 0) plainCalls).weights =
        [("b", 1 / 4), ("a", 3 / 4)] := by
    decide +kernel
  have hshares' : (after .default (Keystream.ofSeed 1) idleCalls).tree.shares
      (after .default (Keystream.ofSeed 1) idleCalls).weights =
        [("a", 3 / 4), ("b", 1 / 4)] := by
    decide +kernel
  have hactive := (weighed_after .default (Keystream.ofSeed 0) plainCalls).isActiveClient_iff
  have hactive' := (weighed_after .default (Keystream.ofSeed 1) idleCalls).isActiveClient_iff
  rw [hshares] at hactive
  rw [hshares'] at hactive'
  have hclients (client : String) :
      (after .default (Keystream.ofSeed 0) plainCalls).tree.IsActiveClient client ↔
        (after .default (Keystream.ofSeed 1) idleCalls).tree.IsActiveClient client := by
    rw [hactive, hactive']
    simp [or_comm]
  have hweights (path : String)
      (hpath : (after .default (Keystream.ofSeed 0) plainCalls).tree.IsActiveRole path) :
      RoleTree.configured (after .default (Keystream.ofSeed 0) plainCalls).weights path =
        RoleTree.configured (after .default (Keystream.ofSeed 1) idleCalls).weights path := by
    obtain ⟨client, hclient, hbelow⟩ := hpath
    rw [hactive] at hclient
    have hname : client = "b" ∨ client = "a" := by simpa using hclient
    have hvalid : RolePath.IsName client := by
      rcases hname with rfl | rfl <;> simp [RolePath.IsName]
    obtain rfl := hbelow.resolve_right (RolePath.not_extends_name hvalid path)
    rcases hname with rfl | rfl <;> decide +kernel
  exact ⟨hclients, hweights, hshares, hshares',
    shares_of_active .default .default (Keystream.ofSeed 0) (Keystream.ofSeed 1) plainCalls
      idleCalls hclients hweights⟩

end Lottery

end RoleLottery
