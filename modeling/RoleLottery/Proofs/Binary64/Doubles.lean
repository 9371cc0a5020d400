import RoleLottery.Binary64
import RoleLottery.Proofs.Binary64.Unpacked

/-!
# Doubles

A double is packed and unpacked without loss. So the arithmetic of `Float` on numbers that are not
negative is the exact one, rounded to the nearest double, up to the largest one.
-/

namespace RoleLottery.Binary64

open Float.Model Float.Model.UnpackedFloat

variable {u v : UnpackedFloat} {p q : ℚ} {m n : ℕ} {e f : ℤ} {s : Sign} {x y : Float}

/-! ## Packing -/

theorem finite_congr {hm : 0 < m} {hn : 0 < n} (hmn : m = n) (hef : e = f) :
    UnpackedFloat.finite s m e hm = .finite s n f hn := by
  subst hmn hef
  rfl

theorem toNat_leading (mantissa : BitVec 52) :
    (1#1 ++ mantissa).toNat = 2 ^ 52 + mantissa.toNat := by
  rw [BitVec.toNat_append, ← Nat.shiftLeft_add_eq_or_of_lt mantissa.isLt]
  rfl

theorem exponentBias_eq : (Format.binary64.exponentBias : ℤ) = 1023 := rfl

theorem unpack_pack_normal {hm : 0 < m} (hfull : 2 ^ 52 ≤ m) (hlt : m < 2 ^ 53)
    (hleast : -1074 ≤ e) (hmost : e ≤ 971) :
    UnpackedFloat.unpack .binary64 (UnpackedFloat.pack .binary64 (.finite s m e hm)) =
      .finite s m e hm := by
  have hlog : m.log2 = 52 := (Nat.log2_eq_iff hm.ne').mpr ⟨hfull, hlt⟩
  obtain ⟨b, hb⟩ := Int.eq_ofNat_of_zero_le (show 0 ≤ e + 1075 by omega)
  have hbiased : (e + (Format.binary64.exponentBias : ℤ) + (52 : ℕ)).toNat = b := by
    rw [exponentBias_eq]
    omega
  have hexponent : (BitVec.ofNat 11 b).toNat = b := by
    rw [BitVec.toNat_ofNat, Nat.mod_eq_of_lt (by omega)]
  have hmantissa : (BitVec.ofNat 52 m).toNat = m - 2 ^ 52 := by
    rw [BitVec.toNat_ofNat]
    omega
  have hones : BitVec.ofNat 11 b ≠ -1#11 := by
    intro he
    rw [he] at hexponent
    exact absurd hexponent (by simp; omega)
  have hzero : BitVec.ofNat 11 b ≠ 0#11 := by
    intro he
    rw [he] at hexponent
    exact absurd hexponent (by simp; omega)
  rw [UnpackedFloat.pack]
  dsimp only
  rw [hbiased, if_neg (by norm_num; omega), if_pos (by rw [hlog]; rfl), UnpackedFloat.unpack]
  simp only [unpackExponent_packComponents, unpackMantissa_packComponents,
    unpackSign_packComponents, Sign.ofBitVec_toBitVec, if_neg hones, if_neg hzero]
  apply finite_congr
  · rw [toNat_leading, hmantissa]
    omega
  · rw [hexponent, exponentBias_eq]
    omega

theorem unpack_pack_subnormal {hm : 0 < m} (hlt : m < 2 ^ 52) :
    UnpackedFloat.unpack .binary64 (UnpackedFloat.pack .binary64 (.finite s m (-1074) hm)) =
      .finite s m (-1074) hm := by
  have hlog : m.log2 < 52 := (Nat.log2_lt hm.ne').mpr hlt
  have hmantissa : (BitVec.ofNat 52 m).toNat = m := by
    rw [BitVec.toNat_ofNat, Nat.mod_eq_of_lt hlt]
  have hne : BitVec.ofNat 52 m ≠ 0#52 := by
    intro he
    rw [he] at hmantissa
    exact absurd hmantissa (by simp; omega)
  have hshort : m.log2 + 1 ≠ Format.binary64.mantissaBits := by
    have hbits : Format.binary64.mantissaBits = 53 := rfl
    omega
  rw [UnpackedFloat.pack]
  dsimp only
  rw [if_neg (by decide), if_neg hshort, UnpackedFloat.unpack]
  simp only [unpackExponent_packComponents, unpackMantissa_packComponents,
    unpackSign_packComponents, Sign.ofBitVec_toBitVec]
  rw [if_neg (by decide), if_pos trivial, dif_neg hne]
  apply finite_congr hmantissa
  rw [exponentBias_eq]
  rfl

theorem unpack_pack_overflow {hm : 0 < m} (hmost : 971 < e) :
    UnpackedFloat.unpack .binary64 (UnpackedFloat.pack .binary64 (.finite s m e hm)) =
      .infinity s := by
  have hbiased : 2 ^ 11 ≤ (e + (Format.binary64.exponentBias : ℤ) + (52 : ℕ)).toNat + 1 := by
    rw [exponentBias_eq]
    omega
  rw [UnpackedFloat.pack]
  dsimp only
  rw [if_pos hbiased]
  cases s <;> rfl

theorem Denotes.unpack_pack (h : Denotes u q) :
    (Float.Model.pack u).unpack = u ∨
      (Float.Model.pack u).unpack = .infinity .positive ∧ 2 ^ 1024 ≤ q := by
  rw [Float.Model.unpack, Float.Model.pack]
  dsimp only
  cases h with
  | zero s => cases s <;> exact .inl rfl
  | @finite m e hm hlt hleast hfull =>
    by_cases hmost : e ≤ 971
    · left
      rcases le_or_gt (2 ^ 52) m with hnormal | hsmall
      · exact unpack_pack_normal hnormal hlt hleast hmost
      · obtain rfl := hfull.resolve_left (by omega)
        exact unpack_pack_subnormal hsmall
    · right
      refine ⟨unpack_pack_overflow (by omega), ?_⟩
      have hnormal := hfull.resolve_right (by omega)
      calc (2 : ℚ) ^ 1024 = (2 : ℚ) ^ 52 * (2 : ℚ) ^ (972 : ℤ) := by
            rw [show (972 : ℤ) = (972 : ℕ) from rfl, zpow_natCast, ← pow_add]
        _ ≤ (m : ℚ) * 2 ^ e := by
          refine mul_le_mul ?_ (zpow_le_zpow_right₀ one_le_two (by omega)) (zpow_two_pos _).le
            (Nat.cast_nonneg m)
          exact_mod_cast hnormal

theorem bounds_of_unpack {hm : 0 < m} (h : x.toModel.unpack = .finite s m e hm) :
    m < 2 ^ 53 ∧ -1074 ≤ e ∧ (2 ^ 52 ≤ m ∨ e = -1074) ∧ e ≤ 971 := by
  have hmantissa := (@unpackMantissa .binary64 x.toModel.toBits.toBitVec).isLt
  have hexponent := (@unpackExponent .binary64 x.toModel.toBits.toBitVec).isLt
  rw [Float.Model.unpack, UnpackedFloat.unpack] at h
  dsimp only at h hmantissa hexponent
  rw [exponentBias_eq] at h
  split at h
  · split at h <;> cases h
  · rename_i hones
    have hones : _ ≠ 2047 := fun he => hones (BitVec.eq_of_toNat_eq he)
    split at h
    · rename_i hzero
      split at h
      · cases h
      · cases h
        rw [hzero, BitVec.toNat_ofNat]
        omega
    · rename_i hzero
      have hzero : _ ≠ 0 := fun he => hzero (BitVec.eq_of_toNat_eq he)
      cases h
      rw [toNat_leading]
      omega

/-! ## Values -/

/-- The double is the number `q`. Both zeros are zero. -/
def HasValue (x : Float) (q : ℚ) : Prop := Denotes x.toModel.unpack q

/-- The number that a double is, zero for infinities and for what is not a number. -/
def exact (x : Float) : ℚ :=
  match x.toModel.unpack with
  | .finite s m e _ => s.apply m * 2 ^ e
  | _ => 0

theorem HasValue.exact_eq (h : HasValue x q) : exact x = q := by
  unfold exact HasValue at *
  generalize x.toModel.unpack = u at *
  cases h with
  | zero s => rfl
  | finite hm _ _ _ => simp [Sign.apply]

theorem HasValue.lt_bound (h : HasValue x q) : q < 2 ^ 1024 := by
  unfold HasValue at h
  generalize hu : x.toModel.unpack = u at h
  cases h with
  | zero s => positivity
  | @finite m e hm hlt _ _ =>
    obtain ⟨-, -, -, hmost⟩ := bounds_of_unpack hu
    calc (m * 2 ^ e : ℚ) < 2 ^ 53 * 2 ^ e := by
          refine mul_lt_mul_of_pos_right ?_ (zpow_two_pos e)
          exact_mod_cast hlt
      _ ≤ (2 : ℚ) ^ 53 * (2 : ℚ) ^ (971 : ℤ) :=
        mul_le_mul_of_nonneg_left (zpow_le_zpow_right₀ one_le_two hmost) (by positivity)
      _ = 2 ^ 1024 := by
        rw [show (971 : ℤ) = (971 : ℕ) from rfl, zpow_natCast, ← pow_add]

/-- The double is infinity. -/
def IsInfinite (x : Float) : Prop := x.toModel.unpack = .infinity .positive

theorem le_iff_unpack : x ≤ y ↔ x.toModel.unpack.le y.toModel.unpack = true := by
  show decide (x.toModel ≤ y.toModel) = true ↔ _
  rw [decide_eq_true_eq]
  rfl

theorem lt_iff_unpack : x < y ↔ x.toModel.unpack.lt y.toModel.unpack = true := by
  show decide (x.toModel < y.toModel) = true ↔ _
  rw [decide_eq_true_eq]
  rfl

theorem nonneg_of_pos (hx : 0 < x) : 0 ≤ x := by
  rw [lt_iff_unpack, UnpackedFloat.lt, beq_iff_eq] at hx
  rw [le_iff_unpack, UnpackedFloat.le, hx]
  rfl

/-- A double is positive unless it is zero, with either sign, or negative, or not a number. -/
theorem pos_iff : 0 < x ↔ ¬ (x == 0 ∨ x < 0 ∨ x.isNaN) := by
  have hzero : (0 : Float).toModel.unpack = .zero .positive := rfl
  have hbeq : (x == 0) = x.toModel.unpack.beq (.zero .positive) := rfl
  have hnan : x.isNaN = x.toModel.unpack.isNaN := rfl
  rw [lt_iff_unpack, lt_iff_unpack, hbeq, hnan, hzero]
  cases x.toModel.unpack with
  | notANumber => decide
  | infinity s => cases s <;> decide
  | zero s => cases s <;> decide
  | finite s m e hm =>
    cases s <;> simp [UnpackedFloat.lt, UnpackedFloat.beq, UnpackedFloat.compare,
      UnpackedFloat.isNaN]

theorem hasValue_or_isInfinite (hx : 0 ≤ x) : HasValue x (exact x) ∨ IsInfinite x := by
  have hle : UnpackedFloat.le (.zero .positive) x.toModel.unpack = true := le_iff_unpack.mp hx
  unfold HasValue exact IsInfinite
  generalize hu : x.toModel.unpack = u at hle
  cases u with
  | notANumber => cases hle
  | infinity s =>
    cases s with
    | negative => cases hle
    | positive => exact .inr rfl
  | zero s => exact .inl (.zero s)
  | finite s m e hm =>
    obtain ⟨hlt, hleast, hfull, -⟩ := bounds_of_unpack hu
    cases s with
    | negative => cases hle
    | positive =>
      simp only [Sign.apply]
      exact .inl (.finite hm hlt hleast hfull)

theorem hasValue_exact (hfinite : x.isFinite = true) (hx : 0 ≤ x) : HasValue x (exact x) := by
  refine (hasValue_or_isInfinite hx).resolve_right fun hinf => ?_
  have hfinite : x.toModel.unpack.isFinite = true := hfinite
  rw [hinf] at hfinite
  cases hfinite

/-- The double is `q`, or infinity where `q` is out of range. -/
def Yields (x : Float) (q : ℚ) : Prop :=
  HasValue x q ∨ IsInfinite x ∧ 2 ^ 1024 ≤ q

theorem Yields.hasValue (h : Yields x q) (hq : q < 2 ^ 1024) : HasValue x q :=
  h.resolve_right fun hover => absurd hover.2 (not_le.mpr hq)

theorem Denotes.yields (h : Denotes u q) : Yields (.ofModel (.pack u)) q := by
  rcases h.unpack_pack with hu | hover
  · left
    rwa [HasValue, hu]
  · exact .inr hover

/-! ## Arithmetic -/

theorem HasValue.mul (hx : HasValue x p) (hy : HasValue y q) : Yields (x * y) (nearest (p * q)) :=
  (denotes_mul hx hy).yields

theorem HasValue.div (hx : HasValue x p) (hy : HasValue y q) (hq : 0 < q) :
    Yields (x / y) (nearest (p / q)) :=
  (denotes_div hx hy hq).yields

theorem HasValue.add (hx : HasValue x p) (hy : HasValue y q) : Yields (x + y) (nearest (p + q)) :=
  (denotes_add hx hy).yields

theorem HasValue.sub (hx : HasValue x p) (hy : HasValue y q) (hle : q ≤ p) :
    Yields (x - y) (nearest (p - q)) :=
  (denotes_sub hx hy hle).yields

theorem yields_toFloat (n : UInt64) : Yields n.toFloat (nearest n.toNat) :=
  (denotes_ofNat n.toNat).yields

theorem HasValue.abs (hx : HasValue x q) : HasValue x.abs q := by
  have habs : Denotes x.toModel.unpack.abs q := by
    unfold HasValue at hx
    generalize x.toModel.unpack = u at hx
    cases hx with
    | zero s => exact .zero _
    | finite hm hlt hleast hfull => exact .finite hm hlt hleast hfull
  exact Yields.hasValue habs.yields hx.lt_bound

theorem HasValue.lt_iff (hx : HasValue x p) (hy : HasValue y q) : x < y ↔ p < q := by
  rw [lt_iff_unpack, UnpackedFloat.lt, Denotes.compare_eq hx hy, ← cmp_eq_lt_iff]
  simp

theorem HasValue.le_iff (hx : HasValue x p) (hy : HasValue y q) : x ≤ y ↔ p ≤ q := by
  rw [le_iff_unpack, UnpackedFloat.le, Denotes.compare_eq hx hy, Option.any_some,
    Ordering.isLE_iff_ne_gt, cmp_eq_gt_iff, not_lt]

theorem HasValue.toNat_toUInt64 (hx : HasValue x q) :
    x.toUInt64.toNat = min ⌊q⌋₊ (2 ^ 64 - 1) := by
  have hint := Denotes.toInt_eq hx 0 (UInt64.size - 1)
  show (UInt64.ofNatClamp (x.toModel.unpack.toInt 0 (UInt64.size - 1)).toNat).toNat = _
  rw [hint, Int.toNat_natCast, UInt64.ofNatClamp]
  split
  · rename_i hlt
    have hlt : ⌊q⌋₊ < 2 ^ 64 := hlt
    rw [UInt64.toNat_ofNatLT]
    omega
  · rename_i hle
    have hle : 2 ^ 64 ≤ ⌊q⌋₊ := not_lt.mp hle
    rw [UInt64.toNat_ofNatLT, Nat.min_eq_right (by omega)]
    rfl

/-! ## Signs -/

theorem isNegative_eq_false
    (h : Sign.ofBitVec (@unpackSign .binary64 x.toModel.toBits.toBitVec) = .positive) :
    isNegative x = false := by
  have hbit : (@unpackSign .binary64 x.toModel.toBits.toBitVec).toNat = 0 := by
    rw [Sign.ofBitVec] at h
    split at h
    · rename_i hzero
      rw [hzero]
      rfl
    · cases h
  have hshift : (x.toBits >>> 63).toNat = 0 := by
    simp only [unpackSign, BitVec.toNat_cast, BitVec.extractLsb_toNat] at hbit
    have hlt := x.toBits.toNat_lt
    have hbit : x.toBits.toNat >>> 63 % 2 = 0 := hbit
    rw [UInt64.toNat_shiftRight]
    show x.toBits.toNat >>> 63 = 0
    rw [Nat.shiftRight_eq_div_pow] at hbit ⊢
    omega
  rw [isNegative, UInt64.toNat_inj.mp (hshift.trans UInt64.toNat_zero.symm)]
  rfl

theorem isNegative_of_unpack (h : IsInfinite x ∨
    ∃ m e hm, x.toModel.unpack = .finite .positive m e hm) : isNegative x = false := by
  apply isNegative_eq_false
  rw [IsInfinite, Float.Model.unpack, UnpackedFloat.unpack] at h
  dsimp only at h
  split at h
  · split at h
    · rcases h with h | ⟨m, e, hm, h⟩
      · exact UnpackedFloat.infinity.inj h
      · cases h
    · rcases h with h | ⟨m, e, hm, h⟩ <;> cases h
  · split at h
    · split at h
      · rcases h with h | ⟨m, e, hm, h⟩ <;> cases h
      · rcases h with h | ⟨m, e, hm, h⟩
        · cases h
        · exact (UnpackedFloat.finite.inj h).1
    · rcases h with h | ⟨m, e, hm, h⟩
      · cases h
      · exact (UnpackedFloat.finite.inj h).1

theorem HasValue.isNegative_eq_false (hx : HasValue x q) (hq : 0 < q) : isNegative x = false := by
  apply isNegative_of_unpack
  unfold HasValue at hx
  generalize hu : x.toModel.unpack = u at hx
  cases hx with
  | zero s => exact absurd hq (lt_irrefl 0)
  | finite hm _ _ _ => exact .inr ⟨_, _, hm, rfl⟩

/-! ## Zero -/

theorem HasValue.neg_zero (hx : HasValue x 0) : HasValue (-x) 0 := by
  obtain ⟨s, hs⟩ := hx.exists_zero
  have hneg : Denotes x.toModel.unpack.neg 0 := hs ▸ .zero _
  exact Yields.hasValue hneg.yields (by positivity)

end RoleLottery.Binary64
