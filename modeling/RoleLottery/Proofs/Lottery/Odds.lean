import RoleLottery.Proofs.Lottery.Uncached
import RoleLottery.Proofs.RoleTree.Odds

/-!
# Odds of the clients

In exact weights the share of a client is the product of the portions on the way from the root to
its leaf. The shares sum up to one, unless some role passes nothing on.
-/

namespace RoleLottery

/-- The weights are not negative, and they are set for client paths. -/
structure ProperWeights (weights : Table Rat) : Prop where
  nonneg : ∀ path w, weights.get? path = some w → 0 ≤ w
  split : ∀ path w, weights.get? path = some w → ∃ names, RolePath.split path = .ok names

namespace ProperWeights

variable {weights : Table Rat}

theorem insert (h : ProperWeights weights) {path : String} {names : List String} {w : Rat}
    (hpath : RolePath.split path = .ok names) (hw : 0 ≤ w) :
    ProperWeights (weights.insert path w) := by
  constructor
  case nonneg =>
    intro other v hv
    rw [Table.get?_insert] at hv
    split at hv
    · rwa [← Option.some.inj hv]
    · exact h.nonneg other v hv
  case split =>
    intro other v hv
    rw [Table.get?_insert] at hv
    split at hv
    · rename_i hother
      exact ⟨names, hother ▸ hpath⟩
    · exact h.split other v hv

theorem configured_own (h : ProperWeights weights) (role : String) :
    RoleTree.configured weights (RolePath.join role RolePath.ownLeaf) = 1 := by
  unfold RoleTree.configured
  cases hw : weights.get? (RolePath.join role RolePath.ownLeaf) with
  | none => rfl
  | some w =>
    obtain ⟨names, hnames⟩ := h.split _ w hw
    exact absurd rfl (RolePath.ne_own_of_split_eq_ok hnames RolePath.isName_ownLeaf)

theorem nodeWeight_own {α : Type} {t : RoleTree α Rat} (h : ProperWeights weights)
    (hlinked : t.Linked []) {x : NodeId} (hname : (t.node x).name = RolePath.ownLeaf) :
    t.nodeWeight weights x = 1 := by
  have hlive : t.Live x := by
    by_contra hlive
    rw [RoleTree.node_of_not_live hlive] at hname
    exact absurd hname (by simp [default, RoleTree.bareNode, RolePath.ownLeaf])
  have hroot : x ≠ t.top := by
    rintro rfl
    rw [hlinked.root_name] at hname
    exact absurd hname (by simp [RolePath.ownLeaf])
  obtain ⟨p, -, hmem⟩ := hlinked.up hlive hroot List.not_mem_nil
  rw [RoleTree.nodeWeight, (hlinked.down hmem).2.2.2, hname]
  exact h.configured_own (t.node p).path

end ProperWeights

structure Weighed {α : Type} (t : RoleTree α Rat) (weights : Table Rat) : Prop
    extends ProperWeights weights where
  sound : t.Sound
  coherent : t.Coherent weights

namespace Weighed

variable {α : Type} {t : RoleTree α Rat} {weights : Table Rat} {client : String}

theorem shares_eq (h : Weighed t weights) :
    t.shares weights = (t.activeWithin t.slots.size t.top).map fun y =>
      (t.clientOf y, t.odds weights y) :=
  h.sound.shares_eq h.nonneg h.coherent

theorem nodup_clients (h : Weighed t weights) : ((t.shares weights).map (·.1)).Nodup := by
  rw [h.shares_eq, List.map_map]
  exact h.sound.nodup_activeClients

theorem mem_shares_iff (h : Weighed t weights) {share : Rat} :
    (client, share) ∈ t.shares weights ↔
      ∃ x, t.client? client = some x ∧ (t.node x).kind = .active ∧ share = t.odds weights x := by
  rw [h.shares_eq, List.mem_map]
  constructor
  · rintro ⟨x, hx, heq⟩
    obtain ⟨rfl, rfl⟩ := Prod.mk.inj heq
    have hkind := h.sound.linked.mem_activeWithin_root.mp hx
    exact ⟨x, h.sound.client?_of_active hkind, hkind, rfl⟩
  · rintro ⟨x, hclient, hkind, rfl⟩
    refine ⟨x, h.sound.linked.mem_activeWithin_root.mpr hkind, ?_⟩
    rw [((h.sound.registered client x).mp hclient).2.2.2]

theorem mem_unit (h : Weighed t weights) {e : String × Rat} (he : e ∈ t.shares weights) :
    0 ≤ e.2 ∧ e.2 ≤ 1 := by
  obtain ⟨x, hclient, hkind, hshare⟩ := h.mem_shares_iff.mp he
  obtain ⟨ids, hids⟩ := h.sound.linked.exists_lineage (RoleTree.live_of_active hkind)
  have hleads := h.sound.linked.leadsToActive_of_active hkind
  rw [hshare]
  exact h.sound.linked.odds_mem h.nonneg hids hleads

theorem sum_shares (h : Weighed t weights) (hactive : ∃ x, (t.node x).kind = .active)
    (hpasses : t.PassesOn weights) : ((t.shares weights).map (·.2)).sum = 1 := by
  have hlinked := h.sound.linked
  obtain ⟨x, hkind⟩ := hactive
  obtain ⟨ids, hids⟩ := hlinked.exists_lineage (RoleTree.live_of_active hkind)
  have hleads := hlinked.leadsToActive_iff.mpr
    ⟨x, ids, hkind, hids, hids.root_mem⟩
  have hsum := hlinked.sum_odds h.nonneg hpasses hlinked.root_live (Nat.le_add_right _ _) hleads
  rw [h.shares_eq, List.map_map]
  exact hsum.trans hlinked.odds_root

end Weighed

namespace Lottery

variable {α γ : Type} [Amount α] [RaceTime Rat] [WordSource γ] {l l' : Lottery α Rat γ}

theorem properWeights_attempt (h : ProperWeights l.weights) {c : Call α Rat} {order : List String}
    (hl : l.attempt c = .ok (order, l')) : ProperWeights l'.weights := by
  rcases weights_attempt hl with hsame | ⟨path, weight, names, hnames, -, hweight, hset⟩
  · rwa [hsame]
  · rw [hset]
    exact h.insert hnames (by simpa using hweight)

theorem properWeights_after (settings : Settings) (g : γ) (calls : List (Call α Rat)) :
    ProperWeights (after settings g calls).weights := by
  refine run_keeps (P := fun l : Lottery α Rat γ => ProperWeights l.weights)
    (fun c _ l order l' h hl => properWeights_attempt h hl) ?_
  exact ⟨fun path w hw => absurd hw (by simp [Lottery.start]),
    fun path w hw => absurd hw (by simp [Lottery.start])⟩

theorem weighed_after (settings : Settings) (g : γ) (calls : List (Call α Rat)) :
    Weighed (after settings g calls).tree (after settings g calls).weights := by
  obtain ⟨-, hmirrors⟩ := Mirrors.run settings g calls
  obtain ⟨-, htracks⟩ := Tracks.run settings g calls
  exact ⟨properWeights_after settings g calls, htracks.sound, hmirrors.coherent⟩

/-- After any run each active client has a share once: the product over the nodes on the way to its
leaf, each with its part in the weight of all siblings that lead to active leaves. -/
theorem shares_as_odds (settings : Settings) (g : γ) (calls : List (Call α Rat)) :
    let l := after settings g calls
    let shares := l.tree.shares l.weights
    (shares.map (·.1)).Nodup ∧
    (∀ client, (∃ share, (client, share) ∈ shares) ↔
      ∃ x, l.tree.client? client = some x ∧ (l.tree.node x).kind = .active) ∧
    (∀ client share, (client, share) ∈ shares → ∃ x ids, l.tree.client? client = some x ∧
      l.tree.Lineage x ids ∧ share = (ids.map (l.tree.portion l.weights)).prod) ∧
    (∀ x, (l.tree.node x).name = RolePath.ownLeaf → l.tree.nodeWeight l.weights x = 1) ∧
    (∀ e ∈ shares, 0 ≤ e.2 ∧ e.2 ≤ 1) ∧
    ((∃ x, (l.tree.node x).kind = .active) → l.tree.PassesOn l.weights →
      (shares.map (·.2)).sum = 1) := by
  have h := weighed_after settings g calls
  refine ⟨h.nodup_clients, fun client => ?_, fun client share hshare => ?_,
    fun x => h.nodeWeight_own h.sound.linked, fun e => h.mem_unit, h.sum_shares⟩
  · simp only [h.mem_shares_iff]
    constructor
    · rintro ⟨share, x, hclient, hkind, -⟩
      exact ⟨x, hclient, hkind⟩
    · rintro ⟨x, hclient, hkind⟩
      exact ⟨_, x, hclient, hkind, rfl⟩
  · obtain ⟨x, hclient, hkind, rfl⟩ := h.mem_shares_iff.mp hshare
    obtain ⟨ids, hids⟩ := h.sound.linked.exists_lineage (RoleTree.live_of_active hkind)
    exact ⟨x, ids, hclient, hids, h.sound.linked.odds_eq_prod hids⟩

/-- The client `a` shares its role with `a/b`. -/
def roleCalls : List (Call Int Rat) :=
  [.add "a/b", .add "a", .add "d", .activate "a/b", .activate "a", .activate "d",
    .setWeight "a" 3, .setWeight "a/b" 2]

omit [RaceTime Rat] in
/-- The role `a` gets three of four parts; two of three parts of that go to `a/b`. -/
theorem shares_as_odds_roles :
    letI : RaceTime Rat := ⟨fun _ _ => 0⟩
    let l := after .default (Keystream.ofSeed 0) roleCalls
    l.tree.shares l.weights = [("d", 1 / 4), ("a", 1 / 4), ("a/b", 1 / 2)] ∧
    (∃ x, (l.tree.node x).kind = .active) ∧ l.tree.PassesOn l.weights ∧
    ((l.tree.shares l.weights).map (·.2)).sum = 1 := by
  let _ : RaceTime Rat := ⟨fun _ _ => 0⟩
  have hweights : ∀ e ∈ (after .default (Keystream.ofSeed 0) roleCalls).weights.entries,
      0 < e.2 := by
    decide +kernel
  have hactive : ∃ x,
      ((after .default (Keystream.ofSeed 0) roleCalls).tree.node x).kind = .active :=
    ⟨2, by decide +kernel⟩
  have hpasses := (weighed_after .default (Keystream.ofSeed 0) roleCalls).sound.linked.passesOn
    fun path w hw => hweights (path, w) ((Table.get?_eq_some_iff _ path w).mp hw)
  obtain ⟨-, -, -, -, -, hsum⟩ := shares_as_odds .default (Keystream.ofSeed 0) roleCalls
  exact ⟨by decide +kernel, hactive, hpasses, hsum hactive hpasses⟩

end Lottery

end RoleLottery
