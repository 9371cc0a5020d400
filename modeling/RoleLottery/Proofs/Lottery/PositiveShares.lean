import RoleLottery.Proofs.Lottery.Draws
import RoleLottery.Proofs.RoleTree.Halvings

/-!
# Active clients that are drawn

In double precision an active client with positive weights on the way to it has a positive share and
is drawn, unless the weights and the numbers of its siblings halve its share to below the least
double.
-/

namespace RoleLottery.Lottery

section

variable {α γ : Type} [Amount α] [RaceTime Float] [WordSource γ]

theorem isFinite_weights_after (settings : Settings) (g : γ) (calls : List (Call α Float)) :
    ∀ path w, (after settings g calls).weights.get? path = some w → w.isFinite = true := by
  refine run_keeps (P := fun l : Lottery α Float γ =>
    ∀ path w, l.weights.get? path = some w → w.isFinite = true) ?_ ?_
  · intro c _ l order l' h hl path w hw
    rcases weights_attempt hl with hsame | ⟨other, weight, names, -, hfinite, -, hset⟩
    · rw [hsame] at hw
      exact h path w hw
    · rw [hset, Table.get?_insert] at hw
      split at hw
      · rwa [← Option.some.inj hw]
      · exact h path w hw
  · exact fun path w hw => absurd hw (by simp [Lottery.start])

/-- After any run that leaves only positive weights, an active client has a positive share where its
halvings reach no further than the least double. Where this is so for all active clients, a draw
returns each of them once. -/
theorem active_clients_drawn (settings : Settings) (g g' : γ) (calls : List (Call α Float)) :
    let l := after settings g calls
    let order := ({ l with generator := g' } : Lottery α Float γ).draw.1
    (∀ path w, l.weights.get? path = some w → 0 < w) →
    (∀ client x, l.tree.client? client = some x → (l.tree.node x).kind = .active →
      l.tree.totalHalvings l.weights x ≤ 1074 →
      ∃ share, (client, share) ∈ l.tree.shares l.weights ∧ 0 < share) ∧
    ((∀ x, (l.tree.node x).kind = .active → l.tree.totalHalvings l.weights x ≤ 1074) →
      order.Nodup ∧ ∀ client, client ∈ order ↔ l.tree.IsActiveClient client) := by
  intro l order hpositive
  obtain ⟨-, htracks⟩ := Tracks.run settings g calls
  obtain ⟨-, hmirrors⟩ := Mirrors.run settings g calls
  have hsound : l.tree.Sound := htracks.sound
  have hlists := hsound.listsActive l.weights
  have hweights : ∀ path w, l.weights.get? path = some w → w.isFinite = true ∧ 0 < w :=
    fun path w hw => ⟨isFinite_weights_after settings g calls path w hw, hpositive path w hw⟩
  have hshare {client : String} {share : Float} {x : NodeId}
      (hmem : (client, share) ∈ l.tree.shares l.weights) (hclient : l.tree.client? client = some x)
      (hhalvings : l.tree.totalHalvings l.weights x ≤ 1074) : 0 < share :=
    hsound.share_pos hweights hmirrors.coherent hmem hclient hhalvings
  refine ⟨fun client x hclient hkind hhalvings => ?_, fun hall => ?_⟩
  · obtain ⟨e, hmem, rfl⟩ :=
      List.mem_map.mp ((hlists.active client).mpr ⟨x, hclient, hkind⟩)
    exact ⟨e.2, hmem, hshare hmem hclient hhalvings⟩
  · have hfilter : ((l.tree.shares l.weights).filter fun e => Weight.isPositive e.2) =
        l.tree.shares l.weights := by
      refine List.filter_eq_self.mpr fun e he => ?_
      obtain ⟨x, hclient, hkind⟩ := (hlists.active e.1).mp (List.mem_map_of_mem he)
      exact decide_eq_true (hshare he hclient (hall x hkind))
    have hperm : order.Perm ((l.tree.shares l.weights).map (·.1)) :=
      hfilter ▸ hmirrors.draw_perm g'
    refine ⟨hperm.nodup_iff.mpr hlists.once, fun client => ?_⟩
    rw [hperm.mem_iff]
    exact hlists.active client

end

def pairCalls (first second : Float) : List (Call Int Float) :=
  [.add "a", .add "b", .activate "a", .activate "b", .setWeight "a" first, .setWeight "b" second]

theorem get?_weights_pairCalls {first second : Float} {settings : Settings}
    (h : ∀ e ∈ (after settings (Keystream.ofSeed 1) (pairCalls first second)).weights.entries,
      0 < e.2) (path : String) (w : Float)
    (hw : (after settings (Keystream.ofSeed 1) (pairCalls first second)).weights.get? path =
      some w) : 0 < w :=
  h (path, w) ((Table.get?_eq_some_iff _ path w).mp hw)

/-- Weights may be as far apart as 1e300 and 1e-20: their ratio is a double, though not a normal
one. -/
theorem active_clients_drawn_apart :
    let l := after .default (Keystream.ofSeed 1) (pairCalls 1e300 1e-20)
    (∀ path w, l.weights.get? path = some w → 0 < w) ∧
    (∀ x, (l.tree.node x).kind = .active → l.tree.totalHalvings l.weights x ≤ 1074) ∧
    ∀ g, let order := ({ l with generator := g } : Lottery Int Float Keystream).draw.1
      order.Nodup ∧ ∀ client, client ∈ order ↔ l.tree.IsActiveClient client := by
  intro l
  have hpositive : ∀ path w, l.weights.get? path = some w → 0 < w :=
    get?_weights_pairCalls (by decide +kernel)
  have hslots : ∀ x < l.tree.slots.size, (l.tree.node x).kind = .active →
      l.tree.totalHalvings l.weights x ≤ 1074 := by
    decide +kernel
  have hhalvings (x : NodeId) (hkind : (l.tree.node x).kind = .active) :
      l.tree.totalHalvings l.weights x ≤ 1074 :=
    hslots x (RoleTree.live_of_active hkind).lt_size hkind
  refine ⟨hpositive, hhalvings, fun g => ?_⟩
  exact (active_clients_drawn .default (Keystream.ofSeed 1) g (pairCalls 1e300 1e-20) hpositive).2
    hhalvings

/-- From 1e300 down to 1e-300 the ratio is rounded to zero, and the active client is never drawn. -/
theorem active_client_starved :
    let l := after .default (Keystream.ofSeed 1) (pairCalls 1e300 1e-300)
    (∀ path w, l.weights.get? path = some w → 0 < w) ∧ l.tree.IsActiveClient "b" ∧
    l.tree.shares l.weights = [("b", 0), ("a", 1)] ∧
    ∀ g, "b" ∉ ({ l with generator := g } : Lottery Int Float Keystream).draw.1 := by
  intro l
  have hshares : l.tree.shares l.weights = [("b", 0), ("a", 1)] := by
    decide +kernel
  have hpositive : ∀ path w, l.weights.get? path = some w → 0 < w :=
    get?_weights_pairCalls (by decide +kernel)
  refine ⟨hpositive, ⟨2, by decide +kernel⟩, hshares, fun g hmem => ?_⟩
  obtain ⟨-, hmirrors⟩ := Mirrors.run .default (Keystream.ofSeed 1) (pairCalls 1e300 1e-300)
  have hdrawn := (hmirrors.draw_perm g).mem_iff.mp hmem
  rw [hshares] at hdrawn
  exact absurd hdrawn (by decide +kernel)

end RoleLottery.Lottery
