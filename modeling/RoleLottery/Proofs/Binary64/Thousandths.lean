import RoleLottery.Proofs.Binary64.Doubles

/-!
# Thousandths of doubles

Rounding a number that is not negative to thousandths first makes a whole number of them. The count
of thousandths is that whole number, until it reaches the largest integer of 64 bits.
-/

namespace RoleLottery.Binary64

open Float.Model Float.Model.UnpackedFloat

variable {x y : Float} {p q : ℚ} {n : ℕ}

/-! ## Constants -/

theorem hasValue_zero : HasValue 0 0 := Denotes.zero .positive

theorem hasValue_of_exact (hfinite : x.isFinite = true) (hx : 0 ≤ x) (hq : exact x = q) :
    HasValue x q :=
  hq ▸ hasValue_exact hfinite hx

theorem hasValue_one : HasValue 1 1 :=
  hasValue_of_exact (by decide +kernel) (by decide +kernel) (by decide +kernel)

theorem hasValue_thousand : HasValue 1000 1000 :=
  hasValue_of_exact (by decide +kernel) (by decide +kernel) (by decide +kernel)

/-! ## Whole numbers -/

theorem Yields.hasValue_natCast (h : Yields x (nearest n)) (hn : n ≤ 2 ^ 53) : HasValue x n := by
  rw [nearest_eq (representable_natCast hn) (Nat.cast_nonneg n)] at h
  refine h.hasValue ?_
  calc (n : ℚ) ≤ 2 ^ 53 := by exact_mod_cast hn
    _ < 2 ^ 1024 := pow_lt_pow_right₀ one_lt_two (by norm_num)

theorem HasValue.add_one (hx : HasValue x n) (hn : n < 2 ^ 53) : HasValue (x + 1) (n + 1 : ℕ) := by
  refine Yields.hasValue_natCast ?_ hn
  rw [Nat.cast_add_one]
  exact hx.add hasValue_one

theorem roundHalfAway_eq (x : Float) : roundHalfAway x =
    if x.abs < 4503599627370496 then
      let below := x.abs.toUInt64.toFloat
      let magnitude := if x.abs - below < 0.5 then below else below + 1
      if isNegative x then -magnitude else magnitude
    else x := rfl

theorem Denotes.representable_fract {u : UnpackedFloat} (h : Denotes u q) :
    Representable (q - ⌊q⌋₊) := by
  cases h with
  | zero s => exact ⟨0, 0, by norm_num, by norm_num, by simp⟩
  | @finite m e hm hlt hleast _ =>
    rcases le_total 0 e with he | he
    · obtain ⟨k, rfl⟩ := Int.eq_ofNat_of_zero_le he
      have hwhole : (m * 2 ^ (k : ℤ) : ℚ) = (m * 2 ^ k : ℕ) := by
        push_cast
        rw [zpow_natCast]
      rw [hwhole, Nat.floor_natCast, sub_self]
      exact ⟨0, 0, by norm_num, by norm_num, by simp⟩
    · obtain ⟨k, hk⟩ := Int.eq_ofNat_of_zero_le (neg_nonneg.mpr he)
      obtain rfl : e = -k := by omega
      have hquotient : (m * 2 ^ (-k : ℤ) : ℚ) = m / (2 ^ k : ℕ) := by
        simp [div_eq_mul_inv]
      have hsplit : (m : ℚ) = (2 ^ k : ℕ) * (m / 2 ^ k : ℕ) + (m % 2 ^ k : ℕ) := by
        exact_mod_cast (Nat.div_add_mod m (2 ^ k)).symm
      refine ⟨m % 2 ^ k, -k, (Nat.mod_le m _).trans hlt.le, hleast, ?_⟩
      rw [hquotient, Nat.floor_div_natCast, Nat.floor_natCast, zpow_neg, zpow_natCast]
      push_cast at hsplit ⊢
      field_simp
      linarith

theorem HasValue.rounded (hx : HasValue x q) :
    HasValue (roundHalfAway x) ⌊q + 1 / 2⌋₊ := by
  have hwhole : HasValue 4503599627370496 (2 ^ 52) :=
    hasValue_of_exact (by decide +kernel) (by decide +kernel) (by decide +kernel)
  have hhalf : HasValue 0.5 (1 / 2) :=
    hasValue_of_exact (by decide +kernel) (by decide +kernel) (by decide +kernel)
  have hle := Nat.floor_le hx.nonneg
  have hlt := Nat.lt_floor_add_one q
  have hround (n : ℕ) (h : (n : ℚ) ≤ q + 1 / 2) (h' : q + 1 / 2 < n + 1) :
      ⌊q + 1 / 2⌋₊ = n :=
    (Nat.floor_eq_iff (by linarith [hx.nonneg])).mpr ⟨h, h'⟩
  rw [roundHalfAway_eq]
  split
  · rename_i hsmall
    rw [hx.abs.lt_iff hwhole] at hsmall
    have hfloor : ⌊q⌋₊ < 2 ^ 52 := by
      rw [Nat.floor_lt hx.nonneg]
      exact_mod_cast hsmall
    have hnat : x.abs.toUInt64.toNat = ⌊q⌋₊ := by
      rw [hx.abs.toNat_toUInt64]
      omega
    have hbelow : HasValue x.abs.toUInt64.toFloat ⌊q⌋₊ := by
      rw [← hnat]
      exact (yields_toFloat _).hasValue_natCast (by omega)
    -- No digit of the fraction is lost.
    have hfract : HasValue (x.abs - x.abs.toUInt64.toFloat) (q - ⌊q⌋₊) := by
      have hsub := hx.abs.sub hbelow hle
      rw [nearest_eq (Denotes.representable_fract hx) (sub_nonneg.mpr hle)] at hsub
      exact hsub.hasValue ((sub_le_self q (Nat.cast_nonneg _)).trans_lt hx.lt_bound)
    dsimp only
    rcases hx.nonneg.eq_or_lt with rfl | hpos
    · -- The sign of a zero stays.
      rw [hround 0 (by norm_num) (by norm_num),
        if_pos (hfract.lt_iff hhalf |>.mpr (by norm_num))]
      rw [Nat.floor_zero] at hbelow
      split
      · exact_mod_cast HasValue.neg_zero (by exact_mod_cast hbelow)
      · exact hbelow
    · rw [hx.isNegative_eq_false hpos, if_neg (by decide)]
      split
      · rename_i hless
        rw [hfract.lt_iff hhalf] at hless
        rw [hround ⌊q⌋₊ (by linarith) (by linarith)]
        exact hbelow
      · rename_i hmore
        rw [hfract.lt_iff hhalf, not_lt] at hmore
        rw [hround (⌊q⌋₊ + 1) (by push_cast; linarith) (by push_cast; linarith)]
        exact hbelow.add_one (by omega)
  · rename_i hlarge
    rw [hx.abs.lt_iff hwhole] at hlarge
    obtain ⟨n, rfl⟩ := hx.exists_nat (not_lt.mp hlarge)
    rw [hround n (by linarith) (by linarith)]
    exact hx

theorem HasValue.toClampedInt_eq (hx : HasValue x n) :
    toClampedInt x = (min n (2 ^ 63 - 1) : ℕ) := by
  have hnat := hx.abs.toNat_toUInt64
  rw [Nat.floor_natCast] at hnat
  unfold toClampedInt
  dsimp only
  rw [hnat]
  rcases Nat.eq_zero_or_pos n with rfl | hn
  · split <;> rfl
  · rw [hx.isNegative_eq_false (by exact_mod_cast hn), if_neg (by decide)]
    congr 1
    show min (min n (2 ^ 64 - 1)) (2 ^ 63 - 1) = min n (2 ^ 63 - 1)
    omega

/-! ## Infinity -/

theorem IsInfinite.abs_eq (hx : IsInfinite x) : x.abs = .ofModel (.pack (.infinity .positive)) := by
  show Float.ofModel (.pack x.toModel.unpack.abs) = _
  rw [hx]
  rfl

theorem IsInfinite.roundHalfAway_eq (hx : IsInfinite x) : roundHalfAway x = x := by
  have hlarge : ¬ (Float.ofModel (.pack (.infinity .positive)) < 4503599627370496) := by
    decide +kernel
  rw [Binary64.roundHalfAway_eq, hx.abs_eq, if_neg hlarge]

theorem IsInfinite.toClampedInt_eq (hx : IsInfinite x) : toClampedInt x = (2 ^ 63 - 1 : ℕ) := by
  have hnat : (Float.ofModel (.pack (.infinity .positive))).toUInt64.toNat = 2 ^ 64 - 1 := by
    decide +kernel
  rw [toClampedInt, hx.abs_eq, hnat, isNegative_of_unpack (.inl hx)]
  rfl

/-! ## Counts -/

/-- The thousandths that are left of a number when it is rounded, without a largest count. -/
def wholeThousandths (q : ℚ) : ℕ := ⌊nearest (q * 1000) + 1 / 2⌋₊

theorem wholeThousandths_mono (hp : 0 ≤ p) (hpq : p ≤ q) :
    wholeThousandths p ≤ wholeThousandths q := by
  unfold wholeThousandths
  have hnearest := nearest_mono (mul_nonneg hp (by norm_num)) (mul_le_mul_of_nonneg_right hpq
    (by norm_num : (0 : ℚ) ≤ 1000))
  gcongr

theorem le_wholeThousandths (h : n ≤ nearest (q * 1000)) : n ≤ wholeThousandths q :=
  Nat.le_floor (by linarith)

theorem most_le_wholeThousandths (h : 2 ^ 1024 ≤ nearest (q * 1000)) :
    2 ^ 63 ≤ wholeThousandths q := by
  apply le_wholeThousandths
  calc ((2 ^ 63 : ℕ) : ℚ) = 2 ^ 63 := by norm_num
    _ ≤ 2 ^ 1024 := pow_le_pow_right₀ one_le_two (by norm_num)
    _ ≤ nearest (q * 1000) := h

theorem HasValue.thousandths_eq (hx : HasValue x q) :
    thousandths x = (min (wholeThousandths q) (2 ^ 63 - 1) : ℕ) := by
  rcases hx.mul hasValue_thousand with hscaled | ⟨hover, hlarge⟩
  · exact hscaled.rounded.toClampedInt_eq
  · have hle := (Nat.sub_le _ 1).trans (most_le_wholeThousandths hlarge)
    rw [thousandths, hover.roundHalfAway_eq, hover.toClampedInt_eq, Nat.min_eq_right hle]

/-! ## Exact thousandths -/

/-- The double is a whole number of thousandths, with no rounding. -/
def HasThousandths (x : Float) (n : ℕ) : Prop := HasValue x (n / 1000)

theorem hasThousandths_zero : HasThousandths 0 0 := by
  simpa [HasThousandths] using hasValue_zero

/-- Thousandths with finitely many binary digits are eighths. -/
theorem Representable.dvd (h : Representable (n / 1000)) : 125 ∣ n := by
  obtain ⟨m, e, -, -, h⟩ := h
  rw [div_eq_iff (by norm_num)] at h
  rcases le_total 0 e with he | he
  · obtain ⟨k, rfl⟩ := Int.eq_ofNat_of_zero_le he
    refine ⟨m * 2 ^ k * 8, ?_⟩
    rw [zpow_natCast] at h
    have hn : n = m * 2 ^ k * 1000 := by exact_mod_cast h
    omega
  · obtain ⟨k, hk⟩ := Int.eq_ofNat_of_zero_le (neg_nonneg.mpr he)
    obtain rfl : e = -k := by omega
    rw [zpow_neg, zpow_natCast] at h
    have hpow : (2 : ℚ) ^ k ≠ 0 := by positivity
    field_simp at h
    have hn : n * 2 ^ k = 125 * (m * 8) := by
      have hcast : n * 2 ^ k = m * 1000 := by exact_mod_cast h
      omega
    have hcoprime : Nat.Coprime 125 (2 ^ k) := Nat.Coprime.pow_right k (by decide)
    exact hcoprime.dvd_of_dvd_mul_right ⟨_, hn⟩

theorem representable_thousandths (hdvd : 125 ∣ n) (hn : n ≤ 2 ^ 53) :
    Representable (n / 1000) := by
  obtain ⟨m, rfl⟩ := hdvd
  refine ⟨m, -3, by omega, by norm_num, ?_⟩
  push_cast
  norm_num
  ring

theorem Yields.hasThousandths (h : Yields x (nearest (n / 1000))) (hdvd : 125 ∣ n)
    (hn : n ≤ 2 ^ 53) : HasThousandths x n := by
  rw [nearest_eq (representable_thousandths hdvd hn) (by positivity)] at h
  refine h.hasValue ?_
  calc (n / 1000 : ℚ) ≤ n := div_le_self (Nat.cast_nonneg n) (by norm_num)
    _ ≤ 2 ^ 53 := by exact_mod_cast hn
    _ < 2 ^ 1024 := pow_lt_pow_right₀ one_lt_two (by norm_num)

theorem HasThousandths.dvd (h : HasThousandths x n) : 125 ∣ n := (Denotes.representable h).dvd

theorem HasThousandths.add {m : ℕ} (hx : HasThousandths x m) (hy : HasThousandths y n)
    (hmost : m + n ≤ 2 ^ 53) : HasThousandths (x + y) (m + n) := by
  refine Yields.hasThousandths ?_ (Nat.dvd_add hx.dvd hy.dvd) hmost
  rw [Nat.cast_add, add_div]
  exact HasValue.add hx hy

theorem HasThousandths.round (hx : HasThousandths x n) (hmost : n ≤ 2 ^ 53) :
    HasThousandths (roundThousandths x) n := by
  have hscaled : HasValue (x * 1000) n := by
    have hmul := HasValue.mul hx hasValue_thousand
    rw [div_mul_cancel₀ _ (by norm_num)] at hmul
    exact hmul.hasValue_natCast hmost
  have hfloor : ⌊(n : ℚ) + 1 / 2⌋₊ = n :=
    (Nat.floor_eq_iff (by positivity)).mpr ⟨by linarith, by linarith⟩
  have hrounded := hscaled.rounded
  rw [hfloor] at hrounded
  exact (hrounded.div hasValue_thousand (by norm_num)).hasThousandths hx.dvd hmost

theorem HasThousandths.pos_iff (hx : HasThousandths x n) : 0 < x ↔ 0 < n := by
  rw [HasValue.lt_iff hasValue_zero hx]
  constructor
  · intro h
    by_contra hzero
    obtain rfl : n = 0 := by omega
    simp at h
  · intro h
    positivity

end RoleLottery.Binary64
