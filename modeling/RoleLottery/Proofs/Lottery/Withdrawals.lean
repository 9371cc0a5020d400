import RoleLottery.Keystream
import RoleLottery.Proofs.Binary64.Magnitudes
import RoleLottery.Proofs.Bundle.Composed
import RoleLottery.Proofs.Bundle.Withdrawals
import RoleLottery.Proofs.Ledger
import RoleLottery.Proofs.Lottery.Books
import RoleLottery.Proofs.Lottery.Refusals

/-!
# Withdrawals from holdings

In double precision a client can give back no more of a quantity than it holds on the agent, to the
nearest thousandth, as long as what it holds is below the largest count of thousandths. From there
on all amounts count the same, and a check lets any of them pass.
-/

namespace RoleLottery

/-! ## Amounts that are not negative -/

namespace Value

/-- A scalar is not negative; it may be infinite. -/
def Nonneg : Value Float → Prop
  | .scalar a => 0 ≤ a
  | _ => True

def Measured : Value Float → Prop
  | .scalar a => a.isFinite = true ∧ 0 ≤ a
  | _ => True

instance : DecidablePred Measured
  | .scalar a => inferInstanceAs (Decidable (a.isFinite = true ∧ 0 ≤ a))
  | .ranges _ => .isTrue trivial
  | .set _ => .isTrue trivial

variable {v w : Value Float}

theorem Measured.nonneg (h : v.Measured) : v.Nonneg := by
  cases v with
  | scalar a => exact h.2
  | ranges is => trivial
  | set labels => trivial

theorem Nonneg.merge (hv : v.Nonneg) (hw : w.Nonneg) : (v.merge w).Nonneg := by
  cases v with
  | scalar a =>
    cases w with
    | scalar b => exact Binary64.plus_nonneg hv hw
    | ranges js => exact hv
    | set labels => exact hv
  | ranges is => cases w <;> trivial
  | set labels => cases w <;> trivial

theorem Nonneg.remove (hv : v.Nonneg) (w : Value Float) : (v.remove w).Nonneg := by
  cases v with
  | scalar a =>
    cases w with
    | scalar b => exact Binary64.minus_nonneg a b
    | ranges js => exact hv
    | set labels => exact hv
  | ranges is => cases w <;> trivial
  | set labels => cases w <;> trivial

end Value

def Call.IsMeasured {ω : Type} : Call Float ω → Prop
  | .allocate _ _ bundle => bundle.Values Value.Measured
  | .replace _ _ _ new => new.Values Value.Measured
  | _ => True

/-! ## Bundles -/

namespace Bundle

variable {b c : Bundle Float}

theorem Values.measured_nonneg (h : b.Values Value.Measured) : b.Values Value.Nonneg :=
  fun e he => (h e he).nonneg

theorem Values.nonneg_add (h : b.Values Value.Nonneg) (hc : c.Values Value.Nonneg) :
    (b + c).Values Value.Nonneg :=
  h.add hc fun _ _ hv hw => hv.merge hw

theorem Values.nonneg_sub (h : b.Values Value.Nonneg) (c : Bundle Float) :
    (b - c).Values Value.Nonneg :=
  h.sub c fun _ w hv => hv.remove w

theorem Values.amountAt_nonneg (h : b.Values Value.Nonneg) (r : Resource Float) :
    0 ≤ b.amountAt r := by
  unfold amountAt
  cases hfind : b.entries.find? fun e => e.resource.isMergeable r with
  | none => exact Binary64.hasValue_zero.nonneg_float
  | some e =>
    have he := h e (List.mem_of_find?_eq_some hfind)
    rw [Option.bind_some]
    cases hvalue : e.resource.value with
    | scalar a => rwa [hvalue] at he
    | ranges is => exact Binary64.hasValue_zero.nonneg_float
    | set labels => exact Binary64.hasValue_zero.nonneg_float

structure Sizes (b : Bundle Float) : Prop where
  tidy : b.Tidy
  nonneg : b.Values Value.Nonneg

theorem sizes_empty : Sizes {} := ⟨tidy_empty, values_empty⟩

theorem Sizes.add (h : b.Sizes) (hc : c.Values Value.Measured) : (b + c).Sizes :=
  ⟨h.tidy.add c, h.nonneg.nonneg_add hc.measured_nonneg⟩

theorem Sizes.sub (h : b.Sizes) (c : Bundle Float) : (b - c).Sizes :=
  ⟨h.tidy.sub c, h.nonneg.nonneg_sub c⟩

/-- A bundle that is contained has no more of any quantity, where the thousandths can be counted. -/
theorem Sizes.round_le (h : b.Sizes) (hc : c.Unrepeated) (hmeasured : c.Values Value.Measured)
    (hcontains : b.contains c = true) {e : Entry Float} (he : e ∈ c.entries)
    (hshared : e.resource.shared = false) {a : Float} (hvalue : e.resource.value = .scalar a)
    (hcount : Amount.thousandths (b.amountAt e.resource) < 2 ^ 63 - 1) :
    Amount.round a ≤ Amount.round (b.amountAt e.resource) ∧
      0 ≤ Amount.round (b.amountAt e.resource) - Amount.round a := by
  have ha := hmeasured e he
  rw [hvalue] at ha
  have hheld := h.nonneg.amountAt_nonneg e.resource
  refine Binary64.roundThousandths_le_of_thousandths_le hheld ha.2 ?_ hcount
  rcases h.tidy.unrepeated.thousandths_le hc hcontains he hshared hvalue with hnone | hle
  · exact hnone.trans (Binary64.thousandths_nonneg hheld)
  · exact hle

end Bundle

/-! ## Ledgers -/

namespace Ledger

variable {α : Type} {l : Ledger α} {P : Bundle α → Prop} {agent : String}
  {delta old new left : Bundle α}

def Each (P : Bundle α → Prop) (l : Ledger α) : Prop :=
  ∀ agent held, l.heldOn? agent = some held → P held

theorem each_empty : Each P {} := fun _ _ h =>
  absurd h (by simp [EmptyCollection.emptyCollection, empty, heldOn?])

theorem Each.getD_heldOn (h : l.Each P) (hempty : P {}) (agent : String) :
    P ((l.heldOn? agent).getD {}) := by
  cases hheld : l.heldOn? agent with
  | none => exact hempty
  | some held => exact h agent held hheld

theorem Each.insert (h : l.Each P) (hleft : P left) (totals : Quantities α) :
    Each P ⟨l.holdings.insert agent left, totals⟩ := by
  intro other held hheld
  rw [heldOn?, Table.get?_insert] at hheld
  split at hheld
  · rwa [← Option.some.inj hheld]
  · exact h other held hheld

theorem Each.settle (h : l.Each P) (hleft : P left) (totals : Quantities α) :
    Each P ⟨settle l.holdings agent left, totals⟩ := by
  unfold Ledger.settle
  split
  · intro other held hheld
    rw [heldOn?, Table.get?_erase] at hheld
    split at hheld
    · cases hheld
    · exact h other held hheld
  · exact h.insert hleft totals

variable [Amount α]

theorem Each.add (h : l.Each P) (hempty : P {}) (hadd : ∀ held, P held → P (held + delta)) :
    Each P (l.add agent delta).1 := by
  unfold Ledger.add
  split
  · exact h
  · exact h.insert (hadd _ (h.getD_heldOn hempty agent)) _

theorem Each.release (h : l.Each P) (hsub : ∀ held, P held → P (held - delta)) :
    Each P (l.release agent delta).1 := by
  unfold Ledger.release
  cases hheld : l.heldOn? agent with
  | none => exact h
  | some held => exact h.settle (hsub held (h agent held hheld)) _

theorem Each.replace (h : l.Each P) (hempty : P {})
    (hreplace : ∀ held, P held → P (held - old + new)) : Each P (l.replace agent old new).1 :=
  h.settle (hreplace _ (h.getD_heldOn hempty agent)) _

end Ledger

/-! ## Lotteries -/

namespace Lottery

section Checks

variable {α ω γ : Type} [Amount α] {l : Lottery α ω γ} {client agent : String}
  {bundle old new : Bundle α}

theorem contains_of_checkRelease
    (h : (l.ledger client).checkRelease agent bundle = .ok ()) :
    (l.allocationOn client agent).contains bundle = true := by
  obtain ⟨held, hheld, hcontains⟩ := Ledger.checkRelease_eq_ok_iff.mp h
  rwa [allocationOn, hheld]

theorem contains_of_release (h : (l.release client agent bundle).isOk = true) :
    (l.allocationOn client agent).contains bundle = true := by
  apply contains_of_checkRelease
  unfold release at h
  split at h
  · cases h
  · rename_i leaf hleaf
    rw [ledger_of_client?_eq_some hleaf]
    split at h
    · cases h
    · assumption

theorem contains_of_replace (h : (l.replace client agent old new).isOk = true) :
    (l.allocationOn client agent).contains old = true := by
  apply contains_of_checkRelease
  unfold replace at h
  split at h
  · cases h
  · rename_i leaf hleaf
    rw [ledger_of_client?_eq_some hleaf]
    split at h
    · cases h
    · rename_i hcheck
      exact (Ledger.checkReplace_eq_ok_iff.mp hcheck).1

end Checks

variable {ω γ : Type} [Weight ω] [RaceTime ω] [WordSource γ]

theorem sizes_allocationOn (settings : Settings) (g : γ) {calls : List (Call Float ω)}
    (hcalls : ∀ c ∈ calls, c.IsMeasured) (client agent : String) :
    ((after settings g calls).allocationOn client agent).Sizes := by
  have heach : ((after settings g calls).ledger client).Each Bundle.Sizes := by
    refine ledger_after settings g Ledger.each_empty ?_ ?_ ?_
    · intro agent bundle hc l hl
      exact hl.add Bundle.sizes_empty fun _ hheld => hheld.add (hcalls _ hc)
    · intro agent bundle _ l hl _
      exact hl.release fun _ hheld => hheld.sub bundle
    · intro agent old new hc l hl _
      exact hl.replace Bundle.sizes_empty fun _ hheld => (hheld.sub old).add (hcalls _ hc)
  exact heach.getD_heldOn Bundle.sizes_empty agent

/-- What a successful release or replacement takes of a quantity, rounded to thousandths, is at most
what is held of it, rounded alike, and their difference is not below zero. This needs the
thousandths of what is held to be below the largest count; so does the comparison of single values.
-/
theorem withdrawn_within_held (settings : Settings) (g : γ) {calls : List (Call Float ω)}
    (client agent : String) {bundle : Bundle Float} (hcalls : ∀ c ∈ calls, c.IsMeasured)
    (hbundle : bundle.Values Value.Measured) (hsingle : bundle.Unrepeated) :
    let l := after settings g calls
    ((l.release client agent bundle).isOk = true ∨
        (∃ new, (l.replace client agent bundle new).isOk = true) →
      ∀ e ∈ bundle.entries, e.resource.shared = false → ∀ b, e.resource.value = .scalar b →
        let a := (l.allocationOn client agent).amountAt e.resource
        Amount.thousandths a < 2 ^ 63 - 1 →
          Amount.round b ≤ Amount.round a ∧ 0 ≤ Amount.round a - Amount.round b) ∧
    ∀ a b : Float, (Value.scalar a).Measured → (Value.scalar b).Measured →
      (Value.scalar a).contains (.scalar b) = true → Amount.thousandths a < 2 ^ 63 - 1 →
        Amount.round b ≤ Amount.round a := by
  refine ⟨fun hok e he hshared b hvalue hcount => ?_, fun a b ha hb hcontains hcount => ?_⟩
  · have hcontains :
        ((after settings g calls).allocationOn client agent).contains bundle = true := by
      rcases hok with hok | ⟨new, hok⟩
      · exact contains_of_release hok
      · exact contains_of_replace hok
    exact (sizes_allocationOn settings g hcalls client agent).round_le hsingle hbundle hcontains he
      hshared hvalue hcount
  · have hle : Amount.thousandths b ≤ Amount.thousandths a := of_decide_eq_true hcontains
    exact (Binary64.roundThousandths_le_of_thousandths_le ha.2 hb.2 hle hcount).1

def memory (amount : Float) : Bundle Float :=
  .insert {} ⟨"mem", .ofAmount amount, none, false, none⟩

def memoryCalls (amounts : List Float) : List (Call Float Float) :=
  .add "a" :: amounts.map fun amount => .allocate "a" "s" (memory amount)

theorem isMeasured_memoryCalls {amounts : List Float}
    (h : ∀ x ∈ amounts, (memory x).Values Value.Measured) :
    ∀ c ∈ memoryCalls amounts, c.IsMeasured := by
  intro c hc
  rcases List.mem_cons.mp hc with rfl | hc
  · trivial
  · obtain ⟨x, hx, rfl⟩ := List.mem_map.mp hc
    exact h x hx

/-- Before they are rounded, 0.7 and 0.2 are less than 0.9; all of it can be released. -/
theorem withdrawn_within_held_all :
    (∀ c ∈ memoryCalls [0.7, 0.2], c.IsMeasured) ∧ (memory 0.9).Values Value.Measured ∧
    (memory 0.9).Unrepeated ∧ (0.7 : Float) + 0.2 < 0.9 ∧
    let l := after .default (Keystream.ofSeed 1) (memoryCalls [0.7, 0.2])
    (l.release "a" "s" (memory 0.9)).isOk = true ∧
    ∀ e ∈ (memory 0.9).entries, ∀ b, e.resource.value = .scalar b →
      Amount.round b ≤ Amount.round ((l.allocationOn "a" "s").amountAt e.resource) := by
  have hcalls : ∀ c ∈ memoryCalls [0.7, 0.2], c.IsMeasured := by
    apply isMeasured_memoryCalls
    unfold Bundle.Values
    decide +kernel
  have hmemory : (memory 0.9).Values Value.Measured := by
    unfold Bundle.Values
    decide +kernel
  have hrelease : ((after .default (Keystream.ofSeed 1) (memoryCalls [0.7, 0.2])).release "a" "s"
      (memory 0.9)).isOk = true := by
    decide +kernel
  have hcount : ∀ e ∈ (memory 0.9).entries, e.resource.shared = false ∧
      Amount.thousandths (((after .default (Keystream.ofSeed 1)
        (memoryCalls [0.7, 0.2])).allocationOn "a" "s").amountAt e.resource) < 2 ^ 63 - 1 := by
    decide +kernel
  have hparse : Bundle.parse "mem:0.9" = .ok (memory 0.9) := by decide +kernel
  have hsingle := (Bundle.composed_of_parse hparse).made.tidy.unrepeated
  refine ⟨hcalls, hmemory, hsingle, by decide +kernel, hrelease, ?_⟩
  intro e he b hvalue
  have h := withdrawn_within_held .default (Keystream.ofSeed 1) "a" "s" hcalls hmemory hsingle
  exact (h.1 (.inl hrelease) e he (hcount e he).1 b hvalue (hcount e he).2).1

/-- Twice as much as is held can be released where the counts of both are the largest. -/
theorem withdrawn_beyond_held :
    (∀ c ∈ memoryCalls [1e16], c.IsMeasured) ∧ (memory 2e16).Values Value.Measured ∧
    (memory 2e16).Unrepeated ∧
    let l := after .default (Keystream.ofSeed 1) (memoryCalls [1e16])
    (l.release "a" "s" (memory 2e16)).isOk = true ∧
    ∃ e ∈ (memory 2e16).entries, e.resource.shared = false ∧ e.resource.value = .scalar 2e16 ∧
      (l.allocationOn "a" "s").amountAt e.resource = 1e16 ∧
      ¬ Amount.round (2e16 : Float) ≤ Amount.round 1e16 := by
  have hcalls : ∀ c ∈ memoryCalls [1e16], c.IsMeasured := by
    apply isMeasured_memoryCalls
    unfold Bundle.Values
    decide +kernel
  have hmemory : (memory 2e16).Values Value.Measured := by
    unfold Bundle.Values
    decide +kernel
  have hparse : Bundle.parse "mem:20000000000000000" = .ok (memory 2e16) := by decide +kernel
  have hsingle := (Bundle.composed_of_parse hparse).made.tidy.unrepeated
  refine ⟨hcalls, hmemory, hsingle, by decide +kernel, ?_⟩
  simp only [← Value.amount?_eq_some_iff]
  decide +kernel

end Lottery

end RoleLottery
