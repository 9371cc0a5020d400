import RoleLottery.Ledger
import RoleLottery.Proofs.Bundle.Amounts

/-!
# Ledgers in exact amounts

The surplus of a ledger is what its totals have of a name beyond what is held. Adding and releasing
normal bundles keep it, and so does replacing them, unless a shared instance that is an amount is
among them. A ledger without surplus has exact totals.
-/

namespace RoleLottery.Ledger

variable {l : Ledger Int} {agent name : String} {delta old new held left : Bundle Int}
  {totals : Quantities Int}

/-! ## Totals -/

theorem positive_totals_add (h : l.totals.Positive) (agent : String) (delta : Bundle Int) :
    (l.add agent delta).1.totals.Positive := by
  unfold add
  split
  · exact h
  · exact h.add _

theorem positive_added (l : Ledger Int) (agent : String) (delta : Bundle Int) :
    (l.add agent delta).2.Positive := by
  unfold add
  split
  · exact Quantities.positive_empty
  · exact Quantities.positive_ofBundle _

theorem get_totals_add (h : l.totals.Positive) (agent : String) (delta : Bundle Int)
    (name : String) : (l.add agent delta).1.totals.get name =
      l.totals.get name + (l.add agent delta).2.get name := by
  unfold add
  split
  · simp
  · exact h.get_add (Quantities.positive_ofBundle _) name

theorem positive_totals_release (h : l.totals.Positive) (agent : String) (delta : Bundle Int) :
    (l.release agent delta).1.totals.Positive := by
  unfold release
  cases l.heldOn? agent with
  | none => exact h
  | some held => exact h.sub _

theorem positive_removed (l : Ledger Int) (agent : String) (delta : Bundle Int) :
    (l.release agent delta).2.Positive := by
  unfold release
  cases l.heldOn? agent with
  | none => exact Quantities.positive_empty
  | some held => exact Quantities.positive_ofBundle _

theorem get_totals_release (h : l.totals.Positive) (agent : String) (delta : Bundle Int)
    (name : String) : (l.release agent delta).1.totals.get name =
      max (l.totals.get name - (l.release agent delta).2.get name) 0 := by
  have hnonneg := h.get_nonneg name
  unfold release
  cases l.heldOn? agent with
  | none =>
    simp
    omega
  | some held => exact h.get_sub _ name

theorem positive_totals_replace (h : l.totals.Positive) (agent : String) (old new : Bundle Int) :
    (l.replace agent old new).1.totals.Positive :=
  (h.sub _).add _

theorem positive_replaced (l : Ledger Int) (agent : String) (old new : Bundle Int) :
    (l.replace agent old new).2.1.Positive ∧ (l.replace agent old new).2.2.Positive :=
  ⟨Quantities.positive_ofBundle _, Quantities.positive_ofBundle _⟩

theorem get_totals_replace (h : l.totals.Positive) (agent : String) (old new : Bundle Int)
    (name : String) : (l.replace agent old new).1.totals.get name =
      max (l.totals.get name - (l.replace agent old new).2.1.get name) 0 +
        (l.replace agent old new).2.2.get name := by
  unfold replace
  rw [(h.sub _).get_add (Quantities.positive_ofBundle _) name, h.get_sub]

/-! ## Checks -/

section Check

variable {α : Type} [Amount α] {l : Ledger α} {agent : String} {delta : Bundle α}
  {fault : LedgerFault α}

theorem checkRelease_eq_ok_iff : l.checkRelease agent delta = .ok () ↔
    ∃ held, l.heldOn? agent = some held ∧ held.contains delta = true := by
  unfold checkRelease
  cases l.heldOn? agent with
  | none => simp
  | some held => simp

theorem checkReplace_eq_ok_iff : l.checkReplace agent delta = .ok () ↔
    l.checkRelease agent delta = .ok () ∧
      l.totals.contains (Quantities.ofBundle delta.scalars) = true := by
  unfold checkReplace
  cases l.checkRelease agent delta with
  | error fault => simp
  | ok _ => simp

theorem checkRelease_eq_error_iff : l.checkRelease agent delta = .error fault ↔
    l.heldOn? agent = none ∧ fault = .nothingHeld ∨
    ∃ held, l.heldOn? agent = some held ∧ held.contains delta = false ∧
      fault = .insufficientHoldings held delta := by
  unfold checkRelease
  cases l.heldOn? agent with
  | none => simp [eq_comm (b := fault)]
  | some held =>
    cases hcontains : held.contains delta <;> simp [hcontains, eq_comm (b := fault)]

theorem checkReplace_eq_error_iff : l.checkReplace agent delta = .error fault ↔
    l.checkRelease agent delta = .error fault ∨
    l.checkRelease agent delta = .ok () ∧
      l.totals.contains (Quantities.ofBundle delta.scalars) = false ∧
      fault = .insufficientTotals l.totals (Quantities.ofBundle delta.scalars) := by
  unfold checkReplace
  cases l.checkRelease agent delta with
  | error _ => simp
  | ok _ =>
    cases hcovered : l.totals.contains (Quantities.ofBundle delta.scalars) <;>
      simp [hcovered, eq_comm (b := fault)]

end Check

/-! ## What is held -/

/-- The amount of a name that is held on all agents. -/
def heldAmount (l : Ledger Int) (name : String) : Int :=
  (l.holdings.values.map fun held => held.scalarTotal name).sum

/-- Every bundle on record has the property, and has something in it. -/
def Holds (P : Bundle Int → Prop) (l : Ledger Int) : Prop :=
  ∀ agent held, l.heldOn? agent = some held → P held ∧ held.isEmpty = false

section Holds

variable {P : Bundle Int → Prop}

theorem holds_empty : Holds P {} := fun _ _ h =>
  absurd h (by simp [EmptyCollection.emptyCollection, empty, heldOn?])

theorem Holds.settle (h : l.Holds P) (hleft : P left) :
    Holds P ⟨settle l.holdings agent left, totals⟩ := by
  intro other held hheld
  unfold heldOn? Ledger.settle at hheld
  cases hempty : left.isEmpty with
  | true =>
    rw [hempty, if_pos rfl, Table.get?_erase] at hheld
    split at hheld
    · exact absurd hheld (by simp)
    · exact h other held hheld
  | false =>
    rw [hempty, if_neg (by simp), Table.get?_insert] at hheld
    split at hheld
    · rw [← Option.some.inj hheld]
      exact ⟨hleft, hempty⟩
    · exact h other held hheld

theorem Holds.getD_heldOn (h : l.Holds P) (hempty : P {}) (agent : String) :
    P ((l.heldOn? agent).getD {}) := by
  cases hheld : l.heldOn? agent with
  | none => exact hempty
  | some held => exact (h agent held hheld).1

theorem add_eq_settle (l : Ledger Int) (agent : String) (hdelta : ∀ e ∈ delta.entries, e.Filled)
    (hempty : delta.isEmpty = false) :
    (l.add agent delta).1 = ⟨Ledger.settle l.holdings agent ((l.heldOn? agent).getD {} + delta),
      (l.add agent delta).1.totals⟩ := by
  have hnonempty := Bundle.isEmpty_add ((l.heldOn? agent).getD {}) hdelta hempty
  simp [Ledger.add, Ledger.settle, hempty, hnonempty]

theorem Holds.add (h : l.Holds P) (hdelta : ∀ e ∈ delta.entries, e.Filled) (hempty : P {})
    (hadd : ∀ held, P held → P (held + delta)) : Holds P (l.add agent delta).1 := by
  cases hnothing : delta.isEmpty with
  | true =>
    have hsame : (l.add agent delta).1 = l := by
      simp [Ledger.add, hnothing]
    rwa [hsame]
  | false =>
    rw [l.add_eq_settle agent hdelta hnothing]
    exact h.settle (hadd _ (h.getD_heldOn hempty agent))

theorem Holds.release (h : l.Holds P) (hsub : ∀ held, P held → P (held - delta)) :
    Holds P (l.release agent delta).1 := by
  unfold Ledger.release
  cases hheld : l.heldOn? agent with
  | none => exact h
  | some held => exact h.settle (hsub held (h agent held hheld).1)

theorem Holds.replace (h : l.Holds P) (hempty : P {})
    (hreplace : ∀ held, P held → P (held - old + new)) : Holds P (l.replace agent old new).1 :=
  h.settle (hreplace _ (h.getD_heldOn hempty agent))

end Holds

/-- Every bundle on record is normal and has something in it, and the totals store only positive
amounts. -/
structure Normal (l : Ledger Int) : Prop where
  held : ∀ agent held, l.heldOn? agent = some held → held.Normal ∧ held.isEmpty = false
  totals : l.totals.Positive

theorem Normal.holds (h : l.Normal) : l.Holds Bundle.Normal := h.held

theorem normal_empty : Normal {} := ⟨holds_empty, Quantities.positive_empty⟩

theorem scalarTotal_of_isEmpty (h : left.isEmpty = true) (name : String) :
    left.scalarTotal name = 0 := by
  rw [Bundle.scalarTotal_eq, List.isEmpty_iff.mp h]
  rfl

theorem heldAmount_settle (l : Ledger Int) (agent : String) (left : Bundle Int)
    (totals : Quantities Int) (name : String) :
    heldAmount ⟨settle l.holdings agent left, totals⟩ name +
        ((l.heldOn? agent).map (·.scalarTotal name)).getD 0 =
      l.heldAmount name + left.scalarTotal name := by
  unfold heldAmount Ledger.settle
  cases hempty : left.isEmpty with
  | true =>
    rw [if_pos rfl, scalarTotal_of_isEmpty hempty, Int.add_zero]
    exact l.holdings.sum_erase agent _
  | false =>
    rw [if_neg (by simp)]
    exact l.holdings.sum_insert agent left _

theorem Normal.getD_heldOn (h : l.Normal) (agent : String) :
    ((l.heldOn? agent).getD {}).Normal :=
  h.holds.getD_heldOn Bundle.normal_empty agent

theorem scalarTotal_getD_heldOn (l : Ledger Int) (agent name : String) :
    ((l.heldOn? agent).getD {}).scalarTotal name =
      ((l.heldOn? agent).map (·.scalarTotal name)).getD 0 := by
  cases l.heldOn? agent with
  | none => rfl
  | some held => rfl

theorem Normal.scalarTotal_le_heldAmount (h : l.Normal) (hheld : l.heldOn? agent = some held)
    (name : String) : held.scalarTotal name ≤ l.heldAmount name := by
  refine Table.le_sum_of_get?_eq_some hheld fun other hother => ?_
  obtain ⟨key, hkey⟩ := Table.mem_values.mp hother
  exact (h.held key other hkey).1.scalarTotal_nonneg name

theorem Normal.heldAmount_nonneg (h : l.Normal) (name : String) : 0 ≤ l.heldAmount name := by
  apply List.sum_nonneg
  intro a ha
  obtain ⟨held, hheld, rfl⟩ := List.mem_map.mp ha
  obtain ⟨agent, hagent⟩ := Table.mem_values.mp hheld
  exact (h.held agent held hagent).1.scalarTotal_nonneg name

/-! ## Surplus -/

/-- What the totals have of a name beyond what is held. -/
def surplus (l : Ledger Int) (name : String) : Int := l.totals.get name - l.heldAmount name

theorem Normal.add (h : l.Normal) (agent : String) (hdelta : delta.Normal) :
    (l.add agent delta).1.Normal :=
  ⟨h.holds.add hdelta.filled Bundle.normal_empty fun _ hheld => hheld.add hdelta,
    positive_totals_add h.totals agent delta⟩

theorem Normal.surplus_add (h : l.Normal) (agent : String) (hdelta : delta.Normal)
    (name : String) : (l.add agent delta).1.surplus name = l.surplus name := by
  cases hempty : delta.isEmpty with
  | true => simp [Ledger.add, hempty]
  | false =>
    have hheld := h.getD_heldOn agent
    have hsettle := l.heldAmount_settle agent ((l.heldOn? agent).getD {} + delta)
      (l.add agent delta).1.totals name
    rw [← l.add_eq_settle agent hdelta.filled hempty, hheld.scalarTotal_add hdelta,
      scalarTotal_getD_heldOn] at hsettle
    have htotals := get_totals_add h.totals agent delta name
    have hadded : (l.add agent delta).2.get name = Bundle.amountIn (delta.entries.filter
        fun e => !((l.heldOn? agent).getD {}).hasCopy e.resource) name := by
      rw [Ledger.add, hempty, if_neg (by simp)]
      exact Quantities.get_ofBundle_missing hdelta _ name
    unfold surplus
    omega

theorem Normal.release (h : l.Normal) (agent : String) (delta : Bundle Int) :
    (l.release agent delta).1.Normal :=
  ⟨h.holds.release fun _ hheld => hheld.sub delta, positive_totals_release h.totals agent delta⟩

theorem Normal.heldAmount_release (h : l.Normal) (hdelta : delta.Normal)
    (hcheck : l.checkRelease agent delta = .ok ()) (name : String) :
    (l.release agent delta).1.heldAmount name + (l.release agent delta).2.get name =
      l.heldAmount name := by
  obtain ⟨held, hheld, hcontains⟩ := checkRelease_eq_ok_iff.mp hcheck
  have hnormal := (h.held agent held hheld).1
  have hsub := hnormal.scalarTotal_sub hdelta hcontains name
  have hsettle := l.heldAmount_settle agent (held - delta) (l.release agent delta).1.totals name
  rw [hheld, Option.map_some, Option.getD_some] at hsettle
  have hledger : (l.release agent delta).1 =
      ⟨Ledger.settle l.holdings agent (held - delta), (l.release agent delta).1.totals⟩ := by
    simp [Ledger.release, hheld]
  have hremoved : (l.release agent delta).2.get name = Bundle.amountIn (delta.entries.filter
      fun e => !(held - delta).hasCopy e.resource) name := by
    rw [Ledger.release, hheld]
    exact Quantities.get_ofBundle_missing hdelta _ name
  rw [← hledger] at hsettle
  omega

/-- A release takes no more than the totals have, when these cover what is held. -/
theorem Normal.get_release_le (h : l.Normal) (hdelta : delta.Normal)
    (hcheck : l.checkRelease agent delta = .ok ()) (hcovered : 0 ≤ l.surplus name) :
    (l.release agent delta).2.get name ≤ l.totals.get name := by
  have hheld := h.heldAmount_release hdelta hcheck name
  have hnonneg := (h.release agent delta).heldAmount_nonneg name
  unfold surplus at hcovered
  omega

theorem Normal.surplus_release (h : l.Normal) (hdelta : delta.Normal)
    (hcheck : l.checkRelease agent delta = .ok ()) (hcovered : 0 ≤ l.surplus name) :
    (l.release agent delta).1.surplus name = l.surplus name := by
  have hheld := h.heldAmount_release hdelta hcheck name
  have hle := h.get_release_le hdelta hcheck hcovered
  have htotals := get_totals_release h.totals agent delta name
  unfold surplus
  omega

theorem Normal.replace (h : l.Normal) (agent : String) (old : Bundle Int) (hnew : new.Normal) :
    (l.replace agent old new).1.Normal :=
  ⟨h.holds.replace Bundle.normal_empty fun _ hheld => (hheld.sub old).add hnew,
    positive_totals_replace h.totals agent old new⟩

theorem Normal.scalarTotal_le (h : l.Normal) (hold : old.Normal) (hplain : old.NoSharedScalar)
    (hcheck : l.checkRelease agent old = .ok ()) (name : String) :
    old.scalarTotal name ≤ l.heldAmount name := by
  obtain ⟨held, hheld, hcontains⟩ := checkRelease_eq_ok_iff.mp hcheck
  have hnormal := (h.held agent held hheld).1
  have hsub := hnormal.scalarTotal_sub hold hcontains name
  rw [hplain.amountIn_filter_hasCopy] at hsub
  have hleft := (hnormal.sub old).scalarTotal_nonneg name
  have hle := h.scalarTotal_le_heldAmount hheld name
  omega

/-- Totals that cover what is held are never what a replacement fails on. -/
theorem Normal.checkReplace_eq (h : l.Normal) (hold : old.Normal) (hplain : old.NoSharedScalar)
    (hcovered : ∀ name, 0 ≤ l.surplus name) (agent : String) :
    l.checkReplace agent old = l.checkRelease agent old := by
  cases hcheck : l.checkRelease agent old with
  | error fault => simp [checkReplace, hcheck]
  | ok _ =>
    refine checkReplace_eq_ok_iff.mpr ⟨hcheck, h.totals.contains_iff.mpr fun name => ?_⟩
    have hle := h.scalarTotal_le hold hplain hcheck name
    have hsurplus := hcovered name
    unfold surplus at hsurplus
    rw [Quantities.get_ofBundle_scalars hold]
    omega

/-- The holdings lose what the totals lose. They may gain less, when a copy of a shared instance
comes again. -/
theorem Normal.surplus_replace (h : l.Normal) (hold : old.Normal) (hplain : old.NoSharedScalar)
    (hnew : new.Normal) (hcheck : l.checkRelease agent old = .ok ())
    (hcovered : 0 ≤ l.surplus name) :
    (l.replace agent old new).1.surplus name + Bundle.amountIn (new.entries.filter
        fun e => !((l.heldOn? agent).getD {} - old).hasCopy e.resource) name =
      l.surplus name + new.scalarTotal name := by
  have hle := h.scalarTotal_le hold hplain hcheck name
  obtain ⟨held, hheld, hcontains⟩ := checkRelease_eq_ok_iff.mp hcheck
  have hnormal := (h.held agent held hheld).1
  have hsub := hnormal.scalarTotal_sub hold hcontains name
  rw [hplain.amountIn_filter_hasCopy] at hsub
  have hadd := (hnormal.sub old).scalarTotal_add hnew name
  have hsettle := l.heldAmount_settle agent ((l.heldOn? agent).getD {} - old + new)
    (l.replace agent old new).1.totals name
  change (l.replace agent old new).1.heldAmount name + _ = _ at hsettle
  have htotals := get_totals_replace h.totals agent old new name
  have hremoved : (l.replace agent old new).2.1.get name = old.scalarTotal name :=
    Quantities.get_ofBundle_scalars hold name
  have hadded : (l.replace agent old new).2.2.get name = new.scalarTotal name :=
    Quantities.get_ofBundle_scalars hnew name
  simp only [hheld, Option.map_some, Option.getD_some] at hsettle ⊢
  unfold surplus at *
  omega

theorem Normal.surplus_replace_nonneg (h : l.Normal) (hold : old.Normal)
    (hplain : old.NoSharedScalar) (hnew : new.Normal) (hcheck : l.checkRelease agent old = .ok ())
    (hcovered : 0 ≤ l.surplus name) : 0 ≤ (l.replace agent old new).1.surplus name := by
  have hsurplus := h.surplus_replace hold hplain hnew hcheck hcovered
  have hle := Bundle.amountIn_filter_le (fun e he => (hnew.entry e he).regular)
    (fun e => !((l.heldOn? agent).getD {} - old).hasCopy e.resource) name
  rw [← Bundle.scalarTotal_eq new] at hle
  omega

theorem Normal.surplus_replace_eq (h : l.Normal) (hold : old.Normal)
    (hplain : old.NoSharedScalar) (hnew : new.Normal) (hplainNew : new.NoSharedScalar)
    (hcheck : l.checkRelease agent old = .ok ()) (hcovered : 0 ≤ l.surplus name) :
    (l.replace agent old new).1.surplus name = l.surplus name := by
  have hsurplus := h.surplus_replace hold hplain hnew hcheck hcovered
  rw [hplainNew.amountIn_filter_hasCopy] at hsurplus
  omega

/-! ## Ledgers whose totals cover what is held -/

structure Covered (l : Ledger Int) : Prop extends l.Normal where
  surplus_nonneg : ∀ name, 0 ≤ l.surplus name

structure Exact (l : Ledger Int) : Prop extends l.Covered where
  surplus_nonpos : ∀ name, l.surplus name ≤ 0

namespace Covered

theorem empty : Covered {} := ⟨normal_empty, fun _ => Int.le_refl 0⟩

theorem add (h : l.Covered) (agent : String) (hdelta : delta.Normal) :
    (l.add agent delta).1.Covered :=
  ⟨h.toNormal.add agent hdelta, fun name =>
    (h.surplus_nonneg name).trans_eq (h.surplus_add agent hdelta name).symm⟩

theorem release (h : l.Covered) (hdelta : delta.Normal)
    (hcheck : l.checkRelease agent delta = .ok ()) : (l.release agent delta).1.Covered :=
  ⟨h.toNormal.release agent delta, fun name =>
    have hcovered := h.surplus_nonneg name
    hcovered.trans_eq (h.surplus_release hdelta hcheck hcovered).symm⟩

theorem replace (h : l.Covered) (hold : old.Normal) (hplain : old.NoSharedScalar)
    (hnew : new.Normal) (hcheck : l.checkRelease agent old = .ok ()) :
    (l.replace agent old new).1.Covered :=
  ⟨h.toNormal.replace agent old hnew, fun name =>
    h.surplus_replace_nonneg hold hplain hnew hcheck (h.surplus_nonneg name)⟩

end Covered

namespace Exact

theorem empty : Exact {} := ⟨.empty, fun _ => Int.le_refl 0⟩

theorem add (h : l.Exact) (agent : String) (hdelta : delta.Normal) :
    (l.add agent delta).1.Exact :=
  ⟨h.toCovered.add agent hdelta, fun name =>
    (h.surplus_add agent hdelta name).trans_le (h.surplus_nonpos name)⟩

theorem release (h : l.Exact) (hdelta : delta.Normal)
    (hcheck : l.checkRelease agent delta = .ok ()) : (l.release agent delta).1.Exact :=
  ⟨h.toCovered.release hdelta hcheck, fun name =>
    (h.surplus_release hdelta hcheck (h.surplus_nonneg name)).trans_le (h.surplus_nonpos name)⟩

theorem replace (h : l.Exact) (hold : old.Normal) (hplain : old.NoSharedScalar)
    (hnew : new.Normal) (hplainNew : new.NoSharedScalar)
    (hcheck : l.checkRelease agent old = .ok ()) : (l.replace agent old new).1.Exact :=
  ⟨h.toCovered.replace hold hplain hnew hcheck, fun name =>
    (h.surplus_replace_eq hold hplain hnew hplainNew hcheck (h.surplus_nonneg name)).trans_le
      (h.surplus_nonpos name)⟩

theorem get_totals (h : l.Exact) (name : String) : l.totals.get name = l.heldAmount name :=
  Int.eq_of_sub_eq_zero (le_antisymm (h.surplus_nonpos name) (h.surplus_nonneg name))

end Exact

end RoleLottery.Ledger
