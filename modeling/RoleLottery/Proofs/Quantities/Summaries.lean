import RoleLottery.Proofs.Binary64.Thousandths
import RoleLottery.Proofs.Bundle.Canonical
import RoleLottery.Proofs.Bundle.Overflow

/-!
# Quantities of sums and differences

Quantities are additive but for shared instances. In a sum an instance of both bundles counts once,
and a difference has lost those instances whose copies were all taken. For a single name the
quantities of a bundle and its scalar total are the same number.
-/

namespace RoleLottery

namespace Bundle

variable {a b : Bundle Int} {r : Resource Int} {name : String}

end Bundle

namespace Quantities

open Binary64 (HasValue exact)

variable {a b : Bundle Thousandths}

def volume {α : Type} [Amount α] (id : String) (a : α) : Resource α :=
  ⟨"disk", .ofAmount a, none, true, some id⟩

/-- Disk space and two copies of each of two volumes. -/
def store : Bundle Thousandths :=
  ((Bundle.insert {} ⟨"disk", .ofAmount 8, none, false, none⟩).putCopies (volume "v" 5) 2).putCopies
    (volume "w" 7) 2

theorem counting_float : Amount.Counting Binary64.HasThousandths (2 ^ 53) where
  zero := Binary64.hasThousandths_zero
  add := Binary64.HasThousandths.add
  round := Binary64.HasThousandths.round
  isPositive_iff := fun hx => decide_eq_true_iff.trans hx.pos_iff

/-- Doubles that are whole numbers of thousandths are summed up without any rounding, as long as
these are no more than `2 ^ 53` in all. -/
theorem hasValue_sums {b : Bundle Float} {name : String}
    (hb : ∀ x ∈ b.amountsOf name, ∃ n : ℕ, HasValue x (n / 1000))
    (hmost : ((b.amountsOf name).map exact).sum ≤ 2 ^ 53 / 1000) :
    ∀ s ∈ b.sums name, HasValue s ((b.amountsOf name).map exact).sum := by
  -- The thousandths of any double, so that the sum of them is a sum over all the amounts.
  let count (x : Float) : ℕ := ⌊exact x * 1000⌋₊
  have hcount (x : Float) (hx : x ∈ b.amountsOf name) :
      Binary64.HasThousandths x (count x) ∧ exact x = count x / 1000 := by
    obtain ⟨n, hn⟩ := hb x hx
    have hfloor : count x = n := by
      simp only [count]
      rw [hn.exact_eq, div_mul_cancel₀ _ (by norm_num), Nat.floor_natCast]
    rw [hfloor, hn.exact_eq]
    exact ⟨hn, rfl⟩
  have hsum : ((b.amountsOf name).map exact).sum =
      (((b.amountsOf name).map count).sum : ℕ) / 1000 := by
    rw [List.map_congr_left fun x hx => (hcount x hx).2]
    induction b.amountsOf name with
    | nil => simp
    | cons x xs ih =>
      rw [List.map_cons, List.sum_cons, ih, List.map_cons, List.sum_cons, Nat.cast_add, add_div]
  rw [hsum] at hmost ⊢
  have htotal : ((b.amountsOf name).map count).sum ≤ 2 ^ 53 := by
    rw [div_le_div_iff_of_pos_right (by norm_num)] at hmost
    exact_mod_cast hmost
  exact counting_float.sums (fun x hx => (hcount x hx).1) htotal

/-- The sum of the amounts of a name is the amount of the name in the quantities, for all entries
and for the scalar ones alone, and is made up of a shared part and one that is not shared. No amount
may be negative: a negative one is not stored, but lowers the sum. On doubles that are whole numbers
of thousandths, up to `2 ^ 53` in all, none of these sums is rounded. -/
theorem summations_agree (name : String) :
    (∀ b : Bundle Int, (∀ a ∈ b.amountsOf name, 0 ≤ a) →
      b.scalarTotal name = (ofBundle b).get name ∧
      b.scalars.scalarTotal name = (ofBundle b.scalars).get name ∧
      b.scalarTotal name = b.shared.scalarTotal name + b.unshared.scalarTotal name ∧
      b.scalars.scalarTotal name =
        b.shared.scalarTotal name + b.unshared.scalarTotal name) ∧
    ∀ b : Bundle Float, (∀ x ∈ b.amountsOf name, ∃ n : ℕ, HasValue x (n / 1000)) →
      ((b.amountsOf name).map exact).sum ≤ 2 ^ 53 / 1000 →
      ∀ s ∈ b.sums name, HasValue s ((b.amountsOf name).map exact).sum := by
  refine ⟨fun b hb => ?_, fun b => hasValue_sums⟩
  have hsums := Bundle.sums_eq hb
  unfold Bundle.sums at hsums
  simp only [List.forall_mem_cons] at hsums
  obtain ⟨htotal, hget, hscalars, hgetScalars, hparts, -⟩ := hsums
  have hparts : b.shared.scalarTotal name + b.unshared.scalarTotal name = _ := hparts
  rw [htotal, hget, hscalars, hgetScalars, hparts]
  exact ⟨rfl, rfl, rfl, rfl⟩

/-- Half a unit of disk space, and three copies of a volume of a quarter. -/
def shelf : Bundle Float :=
  (Bundle.insert {} ⟨"disk", .ofAmount 0.5, none, false, none⟩).putCopies
    ⟨"disk", .ofAmount 0.25, none, true, some "v"⟩ 3

def pool : Bundle Int :=
  ((Bundle.insert {} ⟨"disk", .ofAmount 8, none, false, none⟩).putCopies (volume "v" 5) 2).putCopies
    (volume "w" 7) 2

theorem summations_agree_disks :
    (∀ a ∈ pool.amountsOf "disk", 0 ≤ a) ∧
    pool.scalarTotal "disk" = 20 ∧ pool.scalarTotal "disk" = (ofBundle pool).get "disk" ∧
    shelf.amountsOf "disk" = [0.5, 0.25] ∧
    HasValue (shelf.scalarTotal "disk") (3 / 4) ∧
    HasValue ((ofBundle shelf).get "disk") (3 / 4) := by
  obtain ⟨hint, hfloat⟩ := summations_agree "disk"
  have hpool : ∀ a ∈ pool.amountsOf "disk", 0 ≤ a := by decide +kernel
  have hshelf : shelf.amountsOf "disk" = [0.5, 0.25] := by decide +kernel
  have hhalf : HasValue 0.5 (500 / 1000) :=
    Binary64.hasValue_of_exact (by decide +kernel) (by decide +kernel) (by decide +kernel)
  have hquarter : HasValue 0.25 (250 / 1000) :=
    Binary64.hasValue_of_exact (by decide +kernel) (by decide +kernel) (by decide +kernel)
  have hwhole : ∀ x ∈ shelf.amountsOf "disk", ∃ n : ℕ, HasValue x (n / 1000) := by
    rw [hshelf]
    simp only [List.forall_mem_cons]
    exact ⟨⟨500, hhalf⟩, ⟨250, hquarter⟩, by simp⟩
  have hsum : ((shelf.amountsOf "disk").map exact).sum = 3 / 4 := by
    rw [hshelf]
    simp only [List.map_cons, List.map_nil, List.sum_cons, List.sum_nil, hhalf.exact_eq,
      hquarter.exact_eq]
    norm_num
  have hsums := hfloat shelf hwhole (by rw [hsum]; norm_num)
  rw [hsum] at hsums
  exact ⟨hpool, by decide +kernel, (hint pool hpool).1, hshelf,
    hsums _ (by simp [Bundle.sums]), hsums _ (by simp [Bundle.sums])⟩

end Quantities

end RoleLottery
