import RoleLottery.Proofs.Bundle.Pointwise
import RoleLottery.Proofs.Lottery.Balance
import RoleLottery.Proofs.Lottery.Refusals

/-!
# Allocations undone

In exact amounts a client that gives back what it just got leaves no trace, whatever the totals were
before: both the holdings and the totals are as they were, in every detail. Ranges and labels that
were held already are not got twice, so these have to be new.
-/

namespace RoleLottery

/-- The bundles that a call brings to a client, or takes from it, are built from constructed
values. -/
def Call.IsAssembledFor {ω : Type} (client : String) : Call Int ω → Prop
  | .allocate holder _ bundle => holder = client → bundle.Assembled
  | .release holder _ bundle => holder = client → bundle.Assembled
  | .replace holder _ old new => holder = client → old.Assembled ∧ new.Assembled
  | _ => True

/-! ## Ledgers -/

namespace Ledger

variable {l : Ledger Int} {agent : String} {delta held : Bundle Int}

theorem settle_insert (hheld : (l.heldOn? agent).getD {} = held)
    (hnonempty : ∀ held, l.heldOn? agent = some held → held.isEmpty = false) (other : Bundle Int) :
    settle (l.holdings.insert agent other) agent held = l.holdings := by
  unfold settle
  cases hat : l.heldOn? agent with
  | none =>
    have hempty : (∅ : Bundle Int).isEmpty = true := rfl
    rw [hat, Option.getD_none] at hheld
    rw [← hheld, if_pos hempty, Table.erase_insert]
    exact Table.erase_of_get?_eq_none hat
  | some old =>
    rw [hat, Option.getD_some] at hheld
    rw [← hheld, if_neg (Bool.eq_false_iff.mp (hnonempty old hat)), Table.insert_insert]
    exact Table.insert_of_get?_eq_some hat

theorem release_add (h : l.Holds Bundle.Canonical) (htotals : l.totals.Positive)
    (hdelta : delta.Canonical) (hsome : delta.isEmpty = false)
    (hapart : ∀ key,
      (delta.contentAt key).Apart (((l.heldOn? agent).getD {}).contentAt key)) :
    (l.add agent delta).1.heldOn? agent = some ((l.heldOn? agent).getD {} + delta) ∧
      (l.add agent delta).1.checkRelease agent delta = .ok () ∧
      (l.add agent delta).1.release agent delta = (l, (l.add agent delta).2) := by
  have hheld := h.getD_heldOn Bundle.canonical_empty agent
  generalize hat : (l.heldOn? agent).getD {} = held at hheld hapart ⊢
  have hholdings : (l.add agent delta).1.holdings = l.holdings.insert agent (held + delta) := by
    simp [Ledger.add, hsome, hat]
  have htotal : (l.add agent delta).1.totals = l.totals + (l.add agent delta).2 := by
    simp [Ledger.add, hsome]
  have hadded : (l.add agent delta).2 = Quantities.ofBundle
      (delta.unshared + delta.shared.filter fun r => !held.holds r 1).scalars := by
    simp [Ledger.add, hsome, hat]
  have hnew : (l.add agent delta).1.heldOn? agent = some (held + delta) := by
    rw [heldOn?, hholdings, Table.get?_insert, if_pos rfl]
  refine ⟨hnew, checkRelease_eq_ok_iff.mpr ⟨_, hnew, hheld.contains_add hdelta⟩, ?_⟩
  -- Before and after the same instances have no copy, so what was added is what is removed.
  rw [release, hnew]
  dsimp only
  rw [hheld.add_sub hdelta hapart, ← hadded, hholdings, htotal,
    htotals.add_sub (positive_added l agent delta),
    settle_insert hat (fun held hheld => (h agent held hheld).2)]

end Ledger

/-! ## Lotteries -/

namespace Lottery

variable {ω γ : Type} {l : Lottery Int ω γ} {client agent : String} {bundle : Bundle Int}

theorem release_of_allocate (hsound : l.tree.Sound)
    (hledger : (l.ledger client).Holds Bundle.Canonical)
    (htotals : (l.ledger client).totals.Positive) (htotal : l.total.Positive)
    (hclient : l.contains client = true) (hbundle : bundle.Canonical)
    (hsome : bundle.isEmpty = false)
    (hapart : ∀ key,
      (bundle.contentAt key).Apart ((l.allocationOn client agent).contentAt key)) :
    ∃ l', l.allocate client agent bundle = .ok l' ∧
      l'.allocationOn client agent = l.allocationOn client agent + bundle ∧
      l'.release client agent bundle = .ok l := by
  obtain ⟨leaf, hleaf⟩ := contains_eq_true_iff.mp hclient
  have hlive := ((hsound.registered client leaf).mp hleaf).1
  unfold allocationOn at hapart ⊢
  rw [ledger_of_client?_eq_some hleaf] at hledger htotals hapart ⊢
  obtain ⟨hheld, hcheck, hback⟩ := Ledger.release_add hledger htotals hbundle hsome hapart
  have hadded := Ledger.positive_added (l.tree.node leaf).ledger agent bundle
  generalize hafter : (l.tree.node leaf).ledger.add agent bundle = result
    at hheld hcheck hback hadded
  obtain ⟨ledger, added⟩ := result
  have hleaf' : (l.withLedger leaf ledger).tree.client? client = some leaf := hleaf
  have hnode : ((l.withLedger leaf ledger).tree.node leaf).ledger = ledger :=
    congrArg Node.ledger (RoleTree.node_modify_self _ _ _ hlive)
  refine ⟨{ l.withLedger leaf ledger with total := l.total + added }, ?_, ?_, ?_⟩
  · rw [allocate, hleaf]
    dsimp only
    rw [hafter]
  · rw [Lottery.ledger, hleaf']
    dsimp only
    rw [hnode, hheld, Option.getD_some]
  · have htree : ((l.withLedger leaf ledger).withLedger leaf (l.tree.node leaf).ledger).tree =
        l.tree :=
      (RoleTree.modify_modify _ _ _ _).trans (RoleTree.modify_of_apply_eq rfl)
    simp only [release, hleaf', hnode, hcheck, hback, htotal.add_sub hadded]
    exact congrArg (fun tree => Except.ok { l with tree := tree }) htree

/-! ## Runs -/

variable [Weight ω] [RaceTime ω] [WordSource γ]

theorem holds_after (settings : Settings) (g : γ) {calls : List (Call Int ω)}
    (hcalls : ∀ c ∈ calls, c.IsAssembledFor client) :
    ((after settings g calls).ledger client).Holds Bundle.Canonical := by
  refine ledger_after settings g Ledger.holds_empty ?_ ?_ ?_
  · intro agent bundle hc l hl
    have hbundle := (hcalls _ hc rfl).canonical
    exact hl.add hbundle.filled Bundle.canonical_empty fun _ hheld => hheld.add hbundle
  · intro agent bundle hc l hl _
    have hbundle := (hcalls _ hc rfl).canonical
    exact hl.release fun _ hheld => hheld.sub hbundle
  · intro agent old new hc l hl _
    obtain ⟨hold, hnew⟩ := hcalls _ hc rfl
    exact hl.replace Bundle.canonical_empty fun _ hheld =>
      (hheld.sub hold.canonical).add hnew.canonical

theorem positive_totals_after (settings : Settings) (g : γ) (calls : List (Call Int ω))
    (client : String) : ((after settings g calls).ledger client).totals.Positive :=
  ledger_after (P := fun l => l.totals.Positive) settings g Quantities.positive_empty
    (fun agent bundle _ _ hl => Ledger.positive_totals_add hl agent bundle)
    (fun agent bundle _ _ hl _ => Ledger.positive_totals_release hl agent bundle)
    fun agent old new _ _ hl _ => Ledger.positive_totals_replace hl agent old new

/-- After any run, giving back what was just got restores the whole lottery. -/
theorem release_restores (settings : Settings) (g : γ) (calls : List (Call Int ω))
    (client agent : String) (bundle : Bundle Int)
    (hcalls : ∀ c ∈ calls, c.IsAssembledFor client)
    (hclient : (after settings g calls).contains client = true) (hbundle : bundle.Assembled)
    (hsome : bundle.isEmpty = false)
    (hapart : ∀ key, (bundle.contentAt key).Apart
      (((after settings g calls).allocationOn client agent).contentAt key)) :
    let l := after settings g calls
    ∃ l', l.allocate client agent bundle = .ok l' ∧
      l'.allocationOn client agent = l.allocationOn client agent + bundle ∧
      l'.release client agent bundle = .ok l := by
  obtain ⟨a, htracks, hpositive, -⟩ := positive_after settings g calls
  exact release_of_allocate htracks.sound (holds_after settings g hcalls)
    (positive_totals_after settings g calls client) hpositive.total hclient hbundle.canonical
    hsome hapart

/-- A client gets two copies of a volume and gives one back by a replacement, which leaves nothing
in its totals. -/
def driftCalls : List (Call Int Float) :=
  [.add "a", .allocate "a" "s" (Bundle.putCopies {} volume 2),
    .replace "a" "s" (.insert {} volume) {}]

def portsAndVolume : Bundle Int := (Bundle.ports 1 9).putCopies volume 1

/-- The totals miss a copy of the volume that is held, before and after. -/
theorem release_restores_drift :
    (∀ c ∈ driftCalls, c.IsAssembledFor "a") ∧ portsAndVolume.Assembled ∧
    let l := after .default (Keystream.ofSeed 0) driftCalls
    l.allocationOn "a" "s" = ⟨[⟨volume, some 1⟩]⟩ ∧ (l.totals "a").get "disk" = 0 ∧
    ∃ l', l.allocate "a" "s" portsAndVolume = .ok l' ∧
      l'.allocationOn "a" "s" = l.allocationOn "a" "s" + portsAndVolume ∧
      l'.release "a" "s" portsAndVolume = .ok l := by
  have hvolume : volume.value.Constructed := .ofAmount 10000
  have hcalls : ∀ c ∈ driftCalls, c.IsAssembledFor "a" := by
    intro c hc
    simp only [driftCalls, List.mem_cons, List.not_mem_nil, or_false] at hc
    rcases hc with rfl | rfl | rfl
    · trivial
    · exact fun _ => .putCopies 2 .empty hvolume
    · exact fun _ => ⟨.putCopies 1 .empty hvolume, .empty⟩
  have hbundle : portsAndVolume.Assembled := by
    unfold portsAndVolume Bundle.ports Bundle.insert
    exact .putCopies 1 (.putCopies 1 .empty (.ofRanges _)) hvolume
  have hheld : (after .default (Keystream.ofSeed 0) driftCalls).allocationOn "a" "s" =
      ⟨[⟨volume, some 1⟩]⟩ := by
    decide +kernel
  have hapart (key : EntryKey Int) : (portsAndVolume.contentAt key).Apart
      (((after .default (Keystream.ofSeed 0) driftCalls).allocationOn "a" "s").contentAt key) := by
    rw [hheld]
    by_cases hkey : volume.key = key
    · subst hkey
      cases portsAndVolume.contentAt volume.key <;> trivial
    · have habsent : Bundle.entryAt? ⟨[⟨volume, some 1⟩]⟩ key = none := by
        rw [Bundle.entryAt?_cons, if_neg hkey]
        rfl
      rw [Bundle.contentAt_of_none habsent, ← Bundle.zero_nothing]
      exact Content.apart_zero _ _
  exact ⟨hcalls, hbundle, hheld, by decide +kernel,
    release_restores .default (Keystream.ofSeed 0) driftCalls "a" "s" portsAndVolume hcalls
      (by decide +kernel) hbundle (by decide +kernel) hapart⟩

end Lottery

end RoleLottery
