import RoleLottery.Proofs.Ledger
import RoleLottery.Proofs.Lottery.Books

/-!
# Totals of a client

In exact amounts the totals of a client are what it holds on all agents, quantities in full and each
shared instance once for each agent. Replacements have to leave shared instances that are amounts
alone.
-/

namespace RoleLottery

/-- The bundles that a call brings to a client, or takes from it, are built from normalized values,
and no replacement has a shared instance that is an amount. -/
def Call.IsPlainFor {ω : Type} (client : String) : Call Int ω → Prop
  | .allocate holder _ bundle => holder = client → bundle.Built
  | .release holder _ bundle => holder = client → bundle.Built
  | .replace holder _ old new =>
    holder = client → old.Built ∧ new.Built ∧ old.NoSharedScalar ∧ new.NoSharedScalar
  | _ => True

namespace Lottery

variable {ω γ : Type} [Weight ω] {l : Lottery Int ω γ} {a : Accounts Int} {client agent : String}
  {old new : Bundle Int} {e : LotteryError Int ω}

omit [Weight ω] in
theorem replace_eq_error_iff (hexact : (l.ledger client).Exact) (hold : old.Normal)
    (hplain : old.NoSharedScalar) :
    l.replace client agent old new = .error e ↔
      l.contains client = false ∧ e = .client (.unknown client) ∨
      l.contains client = true ∧ (l.allocation client).get? agent = none ∧
        e = .ledger client agent .nothingHeld ∨
      ∃ held, (l.allocation client).get? agent = some held ∧ held.contains old = false ∧
        e = .ledger client agent (.insufficientHoldings held old) := by
  have hcheck := hexact.checkReplace_eq hold hplain hexact.surplus_nonneg agent
  rw [allocation]
  cases hleaf : l.tree.client? client with
  | none =>
    have hcontains : l.contains client = false := Table.contains_of_get?_eq_none hleaf
    have hledger : l.ledger client = {} := by
      rw [ledger, hleaf]
    have hreplace : l.replace client agent old new = .error (.client (.unknown client)) := by
      rw [replace, hleaf]
    have hheld : (l.ledger client).holdings.get? agent = none := by
      rw [hledger]
      rfl
    simp [hcontains, hreplace, hheld, eq_comm (b := e)]
  | some leaf =>
    have hcontains : l.contains client = true := Table.contains_of_get?_eq_some hleaf
    have hledger : l.ledger client = (l.tree.node leaf).ledger := by
      rw [ledger, hleaf]
    rw [hledger] at hcheck ⊢
    rw [replace, hleaf]
    dsimp only
    rw [hcheck, Ledger.checkRelease, Ledger.heldOn?]
    cases hheld : (l.tree.node leaf).ledger.holdings.get? agent with
    | none => simp [hcontains, eq_comm (b := e)]
    | some held =>
      cases hcontained : held.contains old <;> simp [hcontains, hcontained, eq_comm (b := e)]

theorem exact_after [RaceTime ω] [WordSource γ] (settings : Settings) (g : γ)
    {calls : List (Call Int ω)} {client : String} (hcalls : ∀ c ∈ calls, c.IsPlainFor client) :
    ((after settings g calls).ledger client).Exact := by
  refine ledger_after settings g Ledger.Exact.empty ?_ ?_ ?_
  · exact fun agent bundle hc l hl => hl.add agent (hcalls _ hc rfl).normal
  · exact fun agent bundle hc l hl hcheck => hl.release (hcalls _ hc rfl).normal hcheck
  · intro agent old new hc l hl hcheck
    obtain ⟨hold, hnew, hplain, hplainNew⟩ := hcalls _ hc rfl
    exact hl.replace hold.normal hplain hnew.normal hplainNew
      (Ledger.checkReplace_eq_ok_iff.mp hcheck).1

/-- After any run the totals of a client are what it holds, as long as its calls are plain. Then
nothing is replaced in vain because of the totals. -/
theorem totals_as_held [RaceTime ω] [WordSource γ] (settings : Settings) (g : γ)
    (calls : List (Call Int ω)) (client : String) (hcalls : ∀ c ∈ calls, c.IsPlainFor client) :
    let l := after settings g calls
    (∀ name, (l.totals client).get name = ((l.allocation client).values.map fun held =>
      held.unshared.scalarTotal name + held.shared.scalarTotal name).sum) ∧
    (∀ agent held, (l.allocation client).get? agent = some held →
      held.isEmpty = false ∧ held.shared.resources.Nodup) ∧
    (∀ name a, (l.totals client).amounts.get? name = some a → 0 < a) ∧
    ∀ agent old new e, old.Built → old.NoSharedScalar →
      (l.replace client agent old new = .error e ↔
        l.contains client = false ∧ e = .client (.unknown client) ∨
        l.contains client = true ∧ (l.allocation client).get? agent = none ∧
          e = .ledger client agent .nothingHeld ∨
        ∃ held, (l.allocation client).get? agent = some held ∧ held.contains old = false ∧
          e = .ledger client agent (.insufficientHoldings held old)) := by
  have h := exact_after settings g hcalls
  refine ⟨fun name => ?_, fun agent held hheld => ?_, h.totals, fun agent old new e hold hplain =>
    replace_eq_error_iff h hold.normal hplain⟩
  · simp only [Bundle.scalarTotal_unshared_shared]
    exact h.get_totals name
  · obtain ⟨hnormal, hempty⟩ := h.held agent held hheld
    exact ⟨hempty, hnormal.shared.nodup_resources⟩

def diskSpace (a : Int) : Bundle Int := .insert {} ⟨"disk", .ofAmount a, none, false, none⟩

/-- A client holds disk space and two copies of a volume, gives one copy back, and gets more space
in exchange for less. -/
def diskCalls : List (Call Int Float) :=
  let volume : Resource Int := ⟨"disk", .ofAmount 5, none, true, some "v"⟩
  [.add "a", .allocate "a" "s" ((diskSpace 3).putCopies volume 2),
    .release "a" "s" (.insert {} volume), .replace "a" "s" (diskSpace 1) (diskSpace 2)]

/-- The volume counts once, before and after. -/
theorem totals_as_held_disks :
    (∀ c ∈ diskCalls, c.IsPlainFor "a") ∧
    let l := after .default (Keystream.ofSeed 0) diskCalls
    (l.totals "a").get "disk" = 9 ∧
    (l.totals "a").get "disk" = ((l.allocation "a").values.map fun held =>
      held.unshared.scalarTotal "disk" + held.shared.scalarTotal "disk").sum := by
  have hspace (a : Int) (ha : 0 ≤ a) : (diskSpace a).Built := by
    unfold diskSpace Bundle.insert
    exact .putCopies 1 .empty (.ofAmount ha)
  have hvolume : (Value.ofAmount (5 : Int)).Normalized := .ofAmount (by decide)
  have hplain : (diskSpace 1).NoSharedScalar ∧ (diskSpace 2).NoSharedScalar := by
    unfold Bundle.NoSharedScalar
    decide
  have hcalls : ∀ c ∈ diskCalls, c.IsPlainFor "a" := by
    intro c hc
    simp only [diskCalls, List.mem_cons, List.not_mem_nil, or_false] at hc
    rcases hc with rfl | rfl | rfl | rfl
    · trivial
    · exact fun _ => .putCopies 2 (hspace 3 (by decide)) hvolume
    · exact fun _ => .putCopies 1 .empty hvolume
    · exact fun _ => ⟨hspace 1 (by decide), hspace 2 (by decide), hplain⟩
  obtain ⟨htotals, -⟩ := totals_as_held .default (Keystream.ofSeed 0) diskCalls "a" hcalls
  exact ⟨hcalls, by decide +kernel, htotals "disk"⟩

end Lottery

end RoleLottery
