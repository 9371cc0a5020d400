import RoleLottery.Amount
import RoleLottery.Proofs.Binary64.Thousandths

/-!
# Magnitudes

Doubles that are not negative are numbers or infinity, and the stored sums and differences of such
doubles are such doubles again. When fewer thousandths are taken than there are and these can be
counted, what is taken is the smaller double.
-/

namespace RoleLottery.Binary64

open Float.Model Float.Model.UnpackedFloat

variable {x y : Float} {p q : ℚ}

/-! ## Infinity -/

theorem isInfinite_pack {u : UnpackedFloat} (h : u = .infinity .positive) :
    IsInfinite (.ofModel (.pack u)) :=
  h ▸ rfl

theorem HasValue.nonneg_float (hx : HasValue x q) : 0 ≤ x :=
  (hasValue_zero.le_iff hx).mpr hx.nonneg

theorem IsInfinite.nonneg (hx : IsInfinite x) : 0 ≤ x := by
  rw [le_iff_unpack, hx]
  rfl

theorem Yields.nonneg (hx : Yields x q) : 0 ≤ x := by
  rcases hx with hx | ⟨hx, -⟩
  · exact hx.nonneg_float
  · exact hx.nonneg

theorem IsInfinite.add_left (hx : IsInfinite x) (hy : 0 ≤ y) : IsInfinite (x + y) := by
  refine isInfinite_pack (u := x.toModel.unpack.add .binary64 y.toModel.unpack) ?_
  rw [hx]
  rcases hasValue_or_isInfinite hy with hy | hy
  · unfold HasValue at hy
    generalize y.toModel.unpack = v, exact y = q at hy
    cases hy <;> rfl
  · rw [hy]
    rfl

theorem HasValue.add_infinite (hx : HasValue x q) (hy : IsInfinite y) : IsInfinite (x + y) := by
  refine isInfinite_pack (u := x.toModel.unpack.add .binary64 y.toModel.unpack) ?_
  rw [hy]
  unfold HasValue at hx
  generalize x.toModel.unpack = u at hx
  cases hx <;> rfl

theorem IsInfinite.mul (hx : IsInfinite x) (hy : HasValue y q) (hq : 0 < q) :
    IsInfinite (x * y) := by
  refine isInfinite_pack (u := x.toModel.unpack.mul .binary64 y.toModel.unpack) ?_
  rw [hx]
  unfold HasValue at hy
  generalize y.toModel.unpack = v at hy
  cases hy with
  | zero s => exact absurd hq (lt_irrefl 0)
  | finite hm _ _ _ => rfl

theorem IsInfinite.div (hx : IsInfinite x) (hy : HasValue y q) (hq : 0 < q) :
    IsInfinite (x / y) := by
  refine isInfinite_pack (u := x.toModel.unpack.div .binary64 y.toModel.unpack) ?_
  rw [hx]
  unfold HasValue at hy
  generalize y.toModel.unpack = v at hy
  cases hy with
  | zero s => exact absurd hq (lt_irrefl 0)
  | finite hm _ _ _ => rfl

/-! ## Rounding -/

theorem IsInfinite.thousandths_eq (hx : IsInfinite x) : thousandths x = (2 ^ 63 - 1 : ℕ) := by
  have hscaled := hx.mul hasValue_thousand (by norm_num)
  rw [thousandths, hscaled.roundHalfAway_eq, hscaled.toClampedInt_eq]

theorem IsInfinite.roundThousandths (hx : IsInfinite x) : IsInfinite (roundThousandths x) := by
  have hscaled := hx.mul hasValue_thousand (by norm_num)
  rw [Binary64.roundThousandths, hscaled.roundHalfAway_eq]
  exact hscaled.div hasValue_thousand (by norm_num)

/-- Rounding makes the nearest double of a whole number of thousandths, or infinity. -/
theorem HasValue.roundThousandths_cases (hx : HasValue x q) :
    HasValue (roundThousandths x) (nearest (wholeThousandths q / 1000)) ∨
      IsInfinite (roundThousandths x) ∧ 2 ^ 1024 ≤ nearest (q * 1000) := by
  rcases hx.mul hasValue_thousand with hscaled | ⟨hover, hlarge⟩
  · refine .inl ((hscaled.rounded.div hasValue_thousand (by norm_num)).hasValue ?_)
    refine nearest_lt_bound (by positivity) ?_
    have hfloor := Nat.floor_le (add_nonneg (nearest_nonneg (q * 1000)) one_half_pos.le)
    have hbound := hscaled.lt_bound
    have hone : (1 : ℚ) ≤ 2 ^ 1023 := one_le_pow₀ one_le_two
    rw [pow_succ] at hbound
    rw [div_le_iff₀ (by norm_num)]
    generalize (2 : ℚ) ^ 1023 = bound at hbound hone ⊢
    linarith
  · refine .inr ⟨?_, hlarge⟩
    rw [Binary64.roundThousandths, hover.roundHalfAway_eq]
    exact hover.div hasValue_thousand (by norm_num)

/-! ## Stored amounts -/

theorem add_nonneg_float (hx : 0 ≤ x) (hy : 0 ≤ y) : 0 ≤ x + y := by
  rcases hasValue_or_isInfinite hx with hx | hx
  · rcases hasValue_or_isInfinite hy with hy | hy
    · exact (hx.add hy).nonneg
    · exact (hx.add_infinite hy).nonneg
  · exact (hx.add_left hy).nonneg

theorem roundThousandths_nonneg (hx : 0 ≤ x) : 0 ≤ roundThousandths x := by
  rcases hasValue_or_isInfinite hx with hx | hx
  · rcases hx.roundThousandths_cases with hround | ⟨hround, -⟩
    · exact hround.nonneg_float
    · exact hround.nonneg
  · exact hx.roundThousandths.nonneg

theorem plus_nonneg (hx : 0 ≤ x) (hy : 0 ≤ y) : 0 ≤ Amount.plus x y :=
  roundThousandths_nonneg (add_nonneg_float hx hy)

theorem minus_nonneg (x y : Float) : 0 ≤ Amount.minus x y := by
  apply roundThousandths_nonneg
  split
  · rename_i hpos
    exact nonneg_of_pos (of_decide_eq_true hpos)
  · exact hasValue_zero.nonneg_float

/-! ## Counts -/

theorem thousandths_nonneg (hx : 0 ≤ x) : 0 ≤ thousandths x := by
  rcases hasValue_or_isInfinite hx with hx | hx
  · have heq := hx.thousandths_eq
    omega
  · rw [hx.thousandths_eq]
    exact Int.natCast_nonneg _

/-- Infinity has no count below the largest integer. -/
theorem hasValue_of_thousandths_lt (hx : 0 ≤ x) (hcount : thousandths x < 2 ^ 63 - 1) :
    HasValue x (exact x) := by
  refine (hasValue_or_isInfinite hx).resolve_right fun hinf => ?_
  rw [hinf.thousandths_eq] at hcount
  exact absurd hcount (by norm_num)

theorem HasValue.exists_roundThousandths (hx : HasValue x q) (hcount : thousandths x < 2 ^ 63 - 1) :
    ∃ n : ℕ, thousandths x = n ∧ HasValue (roundThousandths x) (nearest (n / 1000)) := by
  have heq := hx.thousandths_eq
  have hsmall : wholeThousandths q < 2 ^ 63 - 1 := by omega
  refine ⟨wholeThousandths q, by omega, ?_⟩
  rcases hx.roundThousandths_cases with hround | ⟨-, hlarge⟩
  · exact hround
  · have hmost := most_le_wholeThousandths hlarge
    omega

theorem HasValue.roundThousandths_le (hx : HasValue x p) (hy : HasValue y q)
    (hle : thousandths y ≤ thousandths x) (hcount : thousandths x < 2 ^ 63 - 1) :
    roundThousandths y ≤ roundThousandths x := by
  obtain ⟨n, hn, hround⟩ := hx.exists_roundThousandths hcount
  obtain ⟨m, hm, hround'⟩ := hy.exists_roundThousandths (hle.trans_lt hcount)
  have hmn : m ≤ n := by omega
  rw [hround'.le_iff hround]
  apply nearest_mono (by positivity)
  gcongr

/-- Where the thousandths can be counted, fewer thousandths round to less, and the difference of the
rounded amounts does not fall below zero. -/
theorem roundThousandths_le_of_thousandths_le (hx : 0 ≤ x) (hy : 0 ≤ y)
    (hle : thousandths y ≤ thousandths x) (hcount : thousandths x < 2 ^ 63 - 1) :
    roundThousandths y ≤ roundThousandths x ∧
      0 ≤ roundThousandths x - roundThousandths y := by
  have hx' := hasValue_of_thousandths_lt hx hcount
  have hy' := hasValue_of_thousandths_lt hy (hle.trans_lt hcount)
  have hround := hx'.roundThousandths_le hy' hle hcount
  obtain ⟨n, -, hn⟩ := hx'.exists_roundThousandths hcount
  obtain ⟨m, -, hm⟩ := hy'.exists_roundThousandths (hle.trans_lt hcount)
  exact ⟨hround, (hn.sub hm ((hm.le_iff hn).mp hround)).nonneg⟩

end RoleLottery.Binary64
