import RoleLottery.Proofs.Binary64.Magnitudes

/-!
# Rounding to thousandths

Only doubles that are not negative count any thousandths, and a stored sum of two such doubles
counts some again. Doubles that are bounded by a multiple of a fixed power of two stay so when they
are rounded and added, as long as the thousandths of the bound are in range.
-/

namespace RoleLottery.Binary64

open Float.Model Float.Model.UnpackedFloat

variable {x y : Float} {p q : ℚ} {n : ℕ} {s : Sign}

/-! ## Negative numbers -/

inductive Minus : UnpackedFloat → Prop
  | infinity : Minus (.infinity .negative)
  | zero : Minus (.zero .negative)
  | finite {m : ℕ} {e : ℤ} (hm : 0 < m) : Minus (.finite .negative m e hm)

theorem isNegative_eq_true
    (h : @unpackSign .binary64 x.toModel.toBits.toBitVec = 1#1) : isNegative x = true := by
  have hbit : (@unpackSign .binary64 x.toModel.toBits.toBitVec).toNat = 1 := by
    rw [h]
    rfl
  have hshift : (x.toBits >>> 63).toNat = 1 := by
    simp only [unpackSign, BitVec.toNat_cast, BitVec.extractLsb_toNat] at hbit
    have hlt := x.toBits.toNat_lt
    have hbit : x.toBits.toNat >>> 63 % 2 = 1 := hbit
    rw [UInt64.toNat_shiftRight]
    show x.toBits.toNat >>> 63 = 1
    rw [Nat.shiftRight_eq_div_pow] at hbit ⊢
    omega
  rw [isNegative, UInt64.toNat_inj.mp (hshift.trans UInt64.toNat_one.symm)]
  rfl

theorem Minus.isNegative_pack {u : UnpackedFloat} (h : Minus u) :
    isNegative (.ofModel (.pack u)) = true := by
  have hsign (exponent : BitVec 11) (mantissa : BitVec 52) :
      @unpackSign .binary64 (packComponents .binary64 .negative exponent mantissa) = 1#1 :=
    unpackSign_packComponents _ _ _
  apply isNegative_eq_true
  show @unpackSign .binary64 (UnpackedFloat.pack .binary64 u) = 1#1
  cases h with
  | infinity => exact hsign _ _
  | zero => exact hsign _ _
  | finite hm =>
    rw [UnpackedFloat.pack]
    dsimp only
    split
    · exact hsign _ _
    · split
      · exact hsign _ _
      · exact hsign _ _

theorem toClampedInt_nonpos (h : isNegative x = true) : toClampedInt x ≤ 0 := by
  rw [toClampedInt, h]
  simp

theorem toClampedInt_neg_nonpos (hx : 0 ≤ x) : toClampedInt (-x) ≤ 0 := by
  have hneg : -x = .ofModel (.pack x.toModel.unpack.neg) := rfl
  rw [hneg]
  rcases hasValue_or_isInfinite hx with hx | hx
  · unfold HasValue at hx
    generalize x.toModel.unpack = u, exact x = q at hx
    cases hx with
    | zero s =>
      cases s with
      | positive => exact toClampedInt_nonpos Minus.zero.isNegative_pack
      | negative => decide +kernel
    | finite hm => exact toClampedInt_nonpos (Minus.finite hm).isNegative_pack
  · rw [hx]
    exact toClampedInt_nonpos Minus.infinity.isNegative_pack

theorem toClampedInt_roundHalfAway_nonpos (h : isNegative x = true) :
    toClampedInt (roundHalfAway x) ≤ 0 := by
  have hbelow : 0 ≤ x.abs.toUInt64.toFloat := (yields_toFloat _).nonneg
  rw [roundHalfAway_eq, h]
  split
  · apply toClampedInt_neg_nonpos
    split
    · exact hbelow
    · exact add_nonneg_float hbelow hasValue_one.nonneg_float
  · exact toClampedInt_nonpos h

theorem minus_roundWithAccuracy (m : ℕ) (e : ℤ) (accuracy : Accuracy) :
    Minus (roundWithAccuracy .binary64 .negative m e accuracy) := by
  rw [roundWithAccuracy]
  dsimp only
  split
  · exact .zero
  · exact .finite _

theorem Denotes.exists_finite {u : UnpackedFloat} (h : Denotes u q) (hq : 0 < q) :
    ∃ m e hm, u = .finite .positive m e hm := by
  cases h with
  | zero s => exact absurd hq (lt_irrefl 0)
  | finite hm _ _ _ => exact ⟨_, _, hm, rfl⟩

theorem nonneg_of_thousandths_pos (h : 0 < thousandths x) : 0 ≤ x := by
  by_contra hneg
  refine absurd h (not_lt.mpr ?_)
  have hthousand : Denotes (1000 : Float).toModel.unpack 1000 := hasValue_thousand
  have hproduct : x * 1000 =
      .ofModel (.pack (x.toModel.unpack.mul .binary64 (1000 : Float).toModel.unpack)) := rfl
  obtain ⟨m, e, hm, hunpack⟩ := hthousand.exists_finite (by norm_num)
  rw [le_iff_unpack] at hneg
  rw [thousandths, hproduct, hunpack]
  generalize x.toModel.unpack = u at hneg ⊢
  cases u with
  | notANumber =>
    show toClampedInt (roundHalfAway (.ofModel (.pack .notANumber))) ≤ 0
    decide +kernel
  | infinity s =>
    cases s with
    | positive => exact absurd rfl hneg
    | negative => exact toClampedInt_roundHalfAway_nonpos Minus.infinity.isNegative_pack
  | zero s => exact absurd rfl hneg
  | finite s n f hn =>
    cases s with
    | positive => exact absurd rfl hneg
    | negative =>
      exact toClampedInt_roundHalfAway_nonpos (minus_roundWithAccuracy _ _ _).isNegative_pack

theorem nonneg_of_not_neg (hfinite : x.isFinite = true) (hx : ¬x < 0) : 0 ≤ x := by
  have hfinite : x.toModel.unpack.isFinite = true := hfinite
  have hx : ¬x.toModel.unpack.lt (.zero .positive) = true := fun hlt => hx (lt_iff_unpack.mpr hlt)
  rw [le_iff_unpack]
  show UnpackedFloat.le (.zero .positive) x.toModel.unpack = true
  generalize x.toModel.unpack = u at hfinite hx
  cases u with
  | notANumber => cases hfinite
  | infinity s => cases hfinite
  | zero s => rfl
  | finite s m e hm =>
    cases s with
    | negative => exact absurd rfl hx
    | positive => rfl

/-! ## Counts -/

theorem pos_of_thousandths_pos (h : 0 < thousandths x) : 0 < x := by
  rcases hasValue_or_isInfinite (nonneg_of_thousandths_pos h) with hx | hx
  · refine (hasValue_zero.lt_iff hx).mpr (hx.nonneg.lt_of_ne ?_)
    intro hzero
    rw [hx.thousandths_eq, ← hzero] at h
    revert h
    decide +kernel
  · rw [lt_iff_unpack, hx]
    rfl

/-! ## Sums -/

theorem one_le_wholeThousandths_nearest (h : 1 ≤ n) :
    1 ≤ wholeThousandths (nearest (n / 1000)) := by
  have hthousandth : HasValue (1 / 1000) (nearest (1 / 1000)) :=
    (hasValue_one.div hasValue_thousand (by norm_num)).hasValue
      (nearest_lt_bound (by norm_num) (le_trans (by norm_num) (one_le_pow₀ one_le_two)))
  have hcount : thousandths (1 / 1000) = 1 := by decide +kernel
  rw [hthousandth.thousandths_eq] at hcount
  have hle : nearest (1 / 1000) ≤ nearest (n / 1000) := by
    apply nearest_mono (by norm_num)
    gcongr
    exact_mod_cast h
  have hmono := wholeThousandths_mono (nearest_nonneg _) hle
  omega

/-- A stored sum has thousandths if its parts have. -/
theorem thousandths_plus_pos (hx : 0 < thousandths x) (hy : 0 < thousandths y) :
    0 < thousandths (Amount.plus x y) := by
  have hinf (hinf : IsInfinite (roundThousandths (x + y))) : 0 < thousandths (Amount.plus x y) :=
    hinf.thousandths_eq ▸ by decide
  rcases hasValue_or_isInfinite (nonneg_of_thousandths_pos hx) with hx' | hx'
  swap
  · exact hinf (hx'.add_left (nonneg_of_thousandths_pos hy)).roundThousandths
  rcases hasValue_or_isInfinite (nonneg_of_thousandths_pos hy) with hy' | hy'
  swap
  · exact hinf (hx'.add_infinite hy').roundThousandths
  rcases hx'.add hy' with hsum | ⟨hsum, -⟩
  swap
  · exact hinf hsum.roundThousandths
  rcases hsum.roundThousandths_cases with hround | ⟨hround, -⟩
  swap
  · exact hinf hround
  rw [hx'.thousandths_eq] at hx
  have hle : exact x ≤ nearest (exact x + exact y) :=
    le_nearest (Denotes.representable hx') hx'.nonneg (le_add_of_nonneg_right hy'.nonneg)
  have hcount := wholeThousandths_mono hx'.nonneg hle
  generalize wholeThousandths (nearest (exact x + exact y)) = n at hround hcount
  have hleast : 1 ≤ wholeThousandths (nearest (n / 1000)) :=
    one_le_wholeThousandths_nearest (by omega)
  have heq := hround.thousandths_eq
  change 0 < thousandths (Binary64.roundThousandths (x + y))
  omega

theorem HasValue.isFinite (hx : HasValue x q) : x.isFinite = true := by
  change x.toModel.unpack.isFinite = true
  unfold HasValue at hx
  generalize x.toModel.unpack = u at hx
  cases hx <;> rfl

/-! ## Bounds -/

/-- The place of the last digit of the largest doubles. -/
def grain : ℚ := 2 ^ (971 : ℤ)

theorem grain_pos : 0 < grain := zpow_two_pos _

theorem grain_eq : grain = 2 ^ 971 := zpow_natCast 2 971

theorem exists_grain_eq : ∃ g : ℕ, grain = g :=
  ⟨2 ^ 971, by rw [grain_eq, Nat.cast_pow, Nat.cast_ofNat]⟩

/-- The least number of grains that is not below the double. -/
def grains (x : Float) : ℕ := ⌈exact x / grain⌉₊

theorem exact_le_grains (x : Float) : exact x ≤ grains x * grain :=
  (div_le_iff₀ grain_pos).mp (Nat.le_ceil _)

theorem representable_grains (hn : n ≤ 2 ^ 53) : Representable (n * grain) :=
  ⟨n, 971, hn, by norm_num, rfl⟩

theorem grains_lt_bound (hn : n < 2 ^ 53) : n * grain < 2 ^ 1024 := by
  have hn' : (n : ℚ) < 2 ^ 53 := by exact_mod_cast hn
  calc n * grain < 2 ^ 53 * grain := mul_lt_mul_of_pos_right hn' grain_pos
    _ = 2 ^ 1024 := by rw [grain_eq, ← pow_add]

/-- So many grains have thousandths in the range of the doubles, and one more would not. -/
def mostGrains : ℕ := 9007199254740

theorem thousandths_lt_of_le_mostGrains (hn : n ≤ mostGrains) : n * 1000 < 2 ^ 53 :=
  (Nat.mul_le_mul_right 1000 hn).trans_lt (by decide)

/-- Rounding does not go beyond a number of grains whose thousandths are in range. -/
theorem HasValue.roundThousandths_le_grains (hx : HasValue x q) (hq : q ≤ n * grain)
    (hn : n ≤ mostGrains) : ∃ p, HasValue (roundThousandths x) p ∧ p ≤ n * grain := by
  have hrange := thousandths_lt_of_le_mostGrains hn
  have hscale : ((n * 1000 : ℕ) : ℚ) * grain = n * grain * 1000 := by
    push_cast
    ring
  have hscaled : nearest (q * 1000) ≤ (n * 1000 : ℕ) * grain := by
    refine nearest_le (representable_grains hrange.le) (mul_nonneg hx.nonneg (by norm_num)) ?_
    linarith
  refine ⟨_, hx.roundThousandths_cases.resolve_right fun hover => ?_, ?_⟩
  · exact absurd (hover.2.trans hscaled) (not_le.mpr (grains_lt_bound hrange))
  · obtain ⟨g, hg⟩ := exists_grain_eq
    have hcount : wholeThousandths q ≤ n * 1000 * g := by
      refine Nat.lt_succ_iff.mp ((Nat.floor_lt' (Nat.succ_ne_zero _)).mpr ?_)
      rw [hg] at hscaled
      push_cast at hscaled ⊢
      linarith
    refine nearest_le (representable_grains (by omega))
      (div_nonneg (Nat.cast_nonneg _) (by norm_num)) ?_
    rw [div_le_iff₀ (by norm_num), ← hscale, hg]
    exact_mod_cast hcount

theorem HasValue.plus_le_grains {m : ℕ} (hx : HasValue x p) (hy : HasValue y q)
    (hp : p ≤ m * grain) (hq : q ≤ n * grain) (hmn : m + n ≤ mostGrains) :
    ∃ r, HasValue (Amount.plus x y) r ∧ r ≤ (m + n : ℕ) * grain := by
  have hrange := thousandths_lt_of_le_mostGrains hmn
  have hle : nearest (p + q) ≤ (m + n : ℕ) * grain := by
    refine nearest_le (representable_grains (by omega)) (add_nonneg hx.nonneg hy.nonneg) ?_
    push_cast
    linarith
  have hsum := (hx.add hy).hasValue (hle.trans_lt (grains_lt_bound (by omega)))
  exact hsum.roundThousandths_le_grains hle hmn

end RoleLottery.Binary64
