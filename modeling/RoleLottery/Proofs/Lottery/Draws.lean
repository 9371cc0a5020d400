import RoleLottery.Proofs.Lottery.Refusals
import RoleLottery.Proofs.Lottery.Uncached
import RoleLottery.Proofs.RoleTree.History
import RoleLottery.Proofs.Race
import RoleLottery.Proofs.RoleTree.Outline

/-!
# Who is drawn

The shares list every active client once, in the order of the outline. A draw puts those of them in
a new order whose share is positive, whatever the generator does.
-/

namespace RoleLottery

variable {α ω γ : Type} [Weight ω]

namespace RoleTree

/-- The shares list the active leaves of the tree, and the live nodes are those above them. -/
structure ListsActive (t : RoleTree α ω) (weights : Table ω) : Prop where
  /-- The text has the line of every node, in the order of the walk. -/
  outline : t.outline = String.join ((t.within t.slots.size t.top).map t.indentedLine)
  /-- The clients are those of the active leaves, in the order of the same walk. -/
  order : (t.shares weights).map (·.1) =
    ((t.within t.slots.size t.top).filter fun x => (t.node x).kind = .active).map t.clientOf
  once : ((t.shares weights).map (·.1)).Nodup
  active : ∀ client, client ∈ (t.shares weights).map (·.1) ↔ t.IsActiveClient client
  live : ∀ x, x ∈ t.live ↔
    ∃ leaf ids, (t.node leaf).kind = .active ∧ t.Lineage leaf ids ∧ x ∈ ids

theorem Sound.listsActive {t : RoleTree α ω} (h : t.Sound) (weights : Table ω) :
    t.ListsActive weights where
  outline := h.linked.outline_eq
  order := h.map_shares weights
  once := h.map_shares weights ▸ h.nodup_activeClients
  active := h.mem_map_shares weights
  live _ := h.mem_live_iff.trans h.linked.leadsToActive_iff

end RoleTree

namespace Lottery

variable {l : Lottery α ω γ} {u : Uncached α ω γ}

theorem Mirrors.shares_renew (h : Mirrors l u) :
    (l.cache.renew l.tree l.weights).1.shares = l.tree.shares l.weights := by
  unfold ShareCache.renew
  split
  · rfl
  · rename_i hdirty
    exact (h.cache (by simpa using hdirty)).trans h.coherent.shares_eq.symm

variable [RaceTime ω] [WordSource γ]

theorem Mirrors.draw_perm (h : Mirrors l u) (g : γ) :
    ({ l with generator := g } : Lottery α ω γ).draw.1.Perm
      (((l.tree.shares l.weights).filter fun e => Weight.isPositive e.2).map (·.1)) := by
  rw [← h.shares_renew]
  exact Race.shuffle_perm _ g

variable [Amount α]

/-- The shares list the active clients once each, in the order of the outline, for any history of
the tree and any weights. After any run a draw returns each active client with a positive share
once, and nothing else; no reserved name stands at the end of what it returns. -/
theorem draws_positive_shares (treeCalls : List (RoleTree.TreeCall ω)) (weights : Table ω)
    (settings : Settings) (g g' : γ) (calls : List (Call α ω)) :
    let t : RoleTree α ω := RoleTree.after treeCalls
    let l := after settings g calls
    let order := ({ l with generator := g' } : Lottery α ω γ).draw.1
    t.ListsActive weights ∧ l.tree.ListsActive l.weights ∧ order.Nodup ∧
    (∀ client, client ∈ order ↔
      ∃ share, (client, share) ∈ l.tree.shares l.weights ∧ Weight.isPositive share) ∧
    (∀ client ∈ order, l.contains client ∧ l.tree.IsActiveClient client ∧
      (RolePath.segments client).getLast? ≠ some RolePath.ownLeaf) := by
  intro t l order
  obtain ⟨-, htracks⟩ := Tracks.run settings g calls
  obtain ⟨-, hmirrors⟩ := Mirrors.run settings g calls
  have hsound : l.tree.Sound := htracks.sound
  have horder : order.Perm
      (((l.tree.shares l.weights).filter fun e => Weight.isPositive e.2).map (·.1)) :=
    hmirrors.draw_perm g'
  have hlists := hsound.listsActive l.weights
  have hmem (client : String) : client ∈ order ↔
      ∃ share, (client, share) ∈ l.tree.shares l.weights ∧ Weight.isPositive share := by
    rw [horder.mem_iff]
    simp [List.mem_filter]
  refine ⟨(RoleTree.sound_after treeCalls).1.listsActive weights, hlists, ?_, hmem, ?_⟩
  · exact horder.nodup_iff.mpr (hlists.once.sublist (List.filter_sublist.map _))
  · intro client hclient
    obtain ⟨share, hshare, -⟩ := (hmem client).mp hclient
    have hactive := (hlists.active client).mp (List.mem_map_of_mem hshare)
    obtain ⟨leaf, hleaf, -⟩ := id hactive
    exact ⟨contains_of_client?_eq_some hleaf, hactive, hsound.getLast?_client hleaf⟩

end Lottery

end RoleLottery
