import Mathlib
import RoleLottery.Proofs.Binary64.Mantissa

/-!
# Arithmetic without a largest double

Sums, products and quotients of numbers that are not negative are the exact ones, rounded to the
nearest double. Numbers compare as what they denote.
-/

namespace RoleLottery.Binary64

open Float.Model Float.Model.UnpackedFloat

variable {u v : UnpackedFloat} {p q : ℚ} {m n : ℕ} {e f : ℤ}

theorem Denotes.nonneg (h : Denotes u q) : 0 ≤ q := by
  cases h with
  | zero s => exact le_rfl
  | finite hm _ _ _ => exact mul_nonneg (Nat.cast_nonneg _) (zpow_two_pos _).le

theorem Denotes.exists_zero (h : Denotes u 0) : ∃ s, u = .zero s := by
  generalize hq : (0 : ℚ) = q at h
  cases h with
  | zero s => exact ⟨s, rfl⟩
  | finite hm _ _ _ =>
    exact absurd hq (mul_pos (by exact_mod_cast hm) (zpow_two_pos _)).ne

theorem Denotes.representable (h : Denotes u q) : Representable q := by
  cases h with
  | zero s => exact ⟨0, 0, by norm_num, by norm_num, by simp⟩
  | finite hm hlt hleast _ => exact ⟨_, _, hlt.le, hleast, rfl⟩

theorem Denotes.nearest_eq (h : Denotes u q) : nearest q = q :=
  Binary64.nearest_eq h.representable h.nonneg

/-- From `2 ^ 52` on no double has a fraction. -/
theorem Denotes.exists_nat (h : Denotes u q) (hq : 2 ^ 52 ≤ q) : ∃ n : ℕ, q = n := by
  cases h with
  | zero s => exact absurd hq (by norm_num)
  | @finite m e hm hlt _ _ =>
    have he : 0 ≤ e := by
      by_contra hneg
      refine absurd hq (not_le.mpr ?_)
      calc (m * 2 ^ e : ℚ) < 2 ^ 53 * 2 ^ e := by
            refine mul_lt_mul_of_pos_right ?_ (zpow_two_pos e)
            exact_mod_cast hlt
        _ ≤ 2 ^ 53 * 2 ^ (-1 : ℤ) :=
          mul_le_mul_of_nonneg_left (zpow_le_zpow_right₀ one_le_two (by omega)) (by norm_num)
        _ = 2 ^ 52 := by norm_num
    obtain ⟨k, rfl⟩ := Int.eq_ofNat_of_zero_le he
    exact ⟨m * 2 ^ k, by push_cast; rw [zpow_natCast]⟩

theorem le_place_of_le (h : 2 ^ 52 * 2 ^ e ≤ q) : e ≤ place q := by
  have hq : 0 < q := (mul_pos (by norm_num) (zpow_two_pos e)).trans_le h
  have hlog : 52 + e ≤ Int.log 2 q := by
    refine (Int.zpow_le_iff_le_log one_lt_two hq).mp ?_
    rw [zpow_add₀ (by norm_num)]
    exact_mod_cast h
  have hplace : Int.log 2 q - 52 ≤ place q := le_max_left _ _
  omega

/-! ## Products -/

theorem denotes_mul (hu : Denotes u p) (hv : Denotes v q) :
    Denotes (u.mul .binary64 v) (nearest (p * q)) := by
  cases hu with
  | zero s =>
    rw [zero_mul, nearest_zero]
    cases hv <;> exact .zero _
  | @finite m e hm hlt hleast hfull =>
    cases hv with
    | zero s =>
      rw [mul_zero, nearest_zero]
      exact .zero _
    | @finite n f hn hnlt hnleast hnfull =>
      have hexact : (m * 2 ^ e * (n * 2 ^ f) : ℚ) = (m * n : ℕ) * 2 ^ (e + f) := by
        rw [zpow_add₀ two_ne_zero]
        push_cast
        ring
      rw [hexact]
      have hmn : 0 < m * n := Nat.mul_pos hm hn
      have hpos : (0 : ℚ) < (m * n : ℕ) * 2 ^ (e + f) :=
        mul_pos (by exact_mod_cast hmn) (zpow_two_pos _)
      have hplace : e + f ≤ place ((m * n : ℕ) * 2 ^ (e + f)) := by
        -- A product has too few digits only if both factors have.
        by_cases hsmall : m * n < 2 ^ 52
        · have he : e = -1074 := hfull.resolve_left fun hm =>
            absurd (Nat.mul_le_mul hm hn) (by omega)
          have hle := le_place ((m * n : ℕ) * 2 ^ (e + f))
          have hf : f = -1074 := hnfull.resolve_left fun hn =>
            absurd (Nat.mul_le_mul hm hn) (by omega)
          omega
        · apply le_place_of_le
          refine mul_le_mul_of_nonneg_right ?_ (zpow_two_pos _).le
          exact_mod_cast not_lt.mp hsmall
      refine Holds.denotes_roundWithAccuracy ?_ hpos hplace
      rw [mul_div_assoc, div_self (zpow_two_pos _).ne', mul_one]
      exact holds_exact _

/-! ## Quotients -/

theorem le_log_div (hm : 0 < m) (hn : 0 < n) (e f : ℤ) :
    (m.log2 + e - (n.log2 + 1) - f : ℤ) ≤ Int.log 2 (m * 2 ^ e / (n * 2 ^ f) : ℚ) := by
  have hm' : (0 : ℚ) < m := by exact_mod_cast hm
  have hn' : (0 : ℚ) < n := by exact_mod_cast hn
  have hden : (0 : ℚ) < n * 2 ^ f := mul_pos hn' (zpow_two_pos f)
  have hlog : (2 : ℚ) ^ (m.log2 + e - (n.log2 + 1) - f : ℤ) ≤ m * 2 ^ e / (n * 2 ^ f) := by
    rw [le_div_iff₀ hden]
    calc (2 : ℚ) ^ (m.log2 + e - (n.log2 + 1) - f : ℤ) * (n * 2 ^ f)
        ≤ 2 ^ (m.log2 + e - (n.log2 + 1) - f : ℤ) * (2 ^ (n.log2 + 1) * 2 ^ f) := by
          have hlt : (n : ℚ) ≤ 2 ^ (n.log2 + 1) := by exact_mod_cast Nat.lt_log2_self.le
          gcongr
      _ = 2 ^ m.log2 * 2 ^ e := by
        rw [← zpow_natCast, ← zpow_natCast, ← zpow_add₀ two_ne_zero, ← zpow_add₀ two_ne_zero,
          ← zpow_add₀ two_ne_zero]
        congr 1
        push_cast
        omega
      _ ≤ m * 2 ^ e := by
        have hle : (2 : ℚ) ^ m.log2 ≤ m := by exact_mod_cast Nat.log2_self_le hm.ne'
        gcongr
  refine (Int.zpow_le_iff_le_log one_lt_two ?_).mp (by exact_mod_cast hlog)
  exact div_pos (mul_pos hm' (zpow_two_pos e)) hden

theorem div_shiftLeft_eq (hn : 0 < n) {k : ℕ} {g : ℤ} (hk : e - f = k + g) :
    (m * 2 ^ e / (n * 2 ^ f) / 2 ^ g : ℚ) =
      (m <<< k / n : ℕ) + ((m <<< k % n : ℕ) : ℚ) / n := by
  have hn' : (n : ℚ) ≠ 0 := by exact_mod_cast hn.ne'
  have hdiv : (m * 2 ^ k : ℚ) = n * (m <<< k / n : ℕ) + (m <<< k % n : ℕ) := by
    have hdiv := Nat.div_add_mod (m <<< k) n
    rw [Nat.shiftLeft_eq] at hdiv ⊢
    exact_mod_cast hdiv.symm
  have he : (2 : ℚ) ^ e = 2 ^ k * 2 ^ g * 2 ^ f := by
    rw [← zpow_natCast, ← zpow_add₀ two_ne_zero, ← zpow_add₀ two_ne_zero]
    congr 1
    omega
  rw [he]
  field_simp
  linarith

theorem denotes_div (hu : Denotes u p) (hv : Denotes v q) (hq : 0 < q) :
    Denotes (u.div .binary64 v) (nearest (p / q)) := by
  cases hv with
  | zero s => exact absurd hq (lt_irrefl 0)
  | @finite n f hn hnlt hnleast hnfull =>
    cases hu with
    | zero s =>
      rw [zero_div, nearest_zero]
      exact .zero _
    | @finite m e hm hlt hleast hfull =>
      have hpos : (0 : ℚ) < m * 2 ^ e / (n * 2 ^ f) :=
        div_pos (mul_pos (by exact_mod_cast hm) (zpow_two_pos e)) hq
      rw [UnpackedFloat.div, divCore]
      dsimp only
      generalize htarget : min (e - f) (Format.binary64.targetExponent
        (totalExponent m e - totalExponent n f)) = g
      have hg : g ≤ place (m * 2 ^ e / (n * 2 ^ f)) := by
        have hlog := le_log_div hm hn e f
        rw [targetExponent_eq, totalExponent, totalExponent] at htarget
        unfold place
        omega
      refine Holds.denotes_roundWithAccuracy ?_ hpos hg
      rw [div_shiftLeft_eq hn (k := (e - f - g).toNat) (by omega)]
      exact (places_accuracyOfFraction (Nat.mod_lt _ hn)).holds _

/-! ## Sums and whole numbers -/

theorem denotes_round (hm : 0 < m) (e : ℤ) :
    Denotes (round .binary64 .positive m e) (nearest (m * 2 ^ e)) := by
  have hm' : (0 : ℚ) < m := by exact_mod_cast hm
  have hpos := mul_pos hm' (zpow_two_pos e)
  have hplace : Format.binary64.targetExponent (totalExponent m e) = place (m * 2 ^ e) := by
    rw [targetExponent_eq, totalExponent, place,
      log_of_whole hm le_rfl (by linarith [zpow_two_pos e])]
    omega
  rw [UnpackedFloat.round, hplace]
  dsimp only [decreaseExponent]
  refine Holds.denotes_roundWithAccuracy ?_ hpos (by omega)
  have hexact : (m * 2 ^ e / 2 ^ (e - (e - place (m * 2 ^ e)).toNat) : ℚ) =
      (m <<< (e - place (m * 2 ^ e)).toNat : ℕ) := by
    rw [Nat.shiftLeft_eq, zpow_sub₀ two_ne_zero, zpow_natCast]
    have := (zpow_two_pos e).ne'
    push_cast
    field_simp
  rw [hexact]
  exact holds_exact _

theorem shiftLeft_mul_zpow (k : ℕ) {f e : ℤ} (h : e ≤ f) :
    (k * 2 ^ f : ℚ) = (k <<< (f - e).toNat : ℕ) * 2 ^ e := by
  rw [Nat.shiftLeft_eq]
  push_cast
  rw [mul_assoc, ← zpow_natCast, ← zpow_add₀ two_ne_zero]
  congr 2
  omega

theorem denotes_normalize (m : ℕ) (e : ℤ) :
    Denotes (UnpackedFloat.normalize .binary64 m e .positive) (nearest (m * 2 ^ e)) := by
  rcases Nat.eq_zero_or_pos m with rfl | hm
  · have hzero : ((0 : ℕ) * 2 ^ e : ℚ) = 0 := by simp
    rw [hzero, nearest_zero]
    exact .zero _
  · rw [UnpackedFloat.normalize, Int.compare_eq_gt.mpr (by omega)]
    exact denotes_round hm e

theorem denotes_ofNat (n : ℕ) : Denotes (.ofNat .binary64 n) (nearest n) := by
  have h := denotes_normalize n 0
  rwa [zpow_zero, mul_one] at h

theorem denotes_add (hu : Denotes u p) (hv : Denotes v q) :
    Denotes (u.add .binary64 v) (nearest (p + q)) := by
  cases hu with
  | zero s =>
    rw [zero_add, hv.nearest_eq]
    cases hv with
    | zero s' =>
      simp only [UnpackedFloat.add]
      split <;> exact .zero _
    | finite hn hnlt hnleast hnfull => exact .finite hn hnlt hnleast hnfull
  | @finite m e hm hlt hleast hfull =>
    cases hv with
    | zero s =>
      rw [add_zero, Denotes.nearest_eq (.finite hm hlt hleast hfull)]
      exact .finite hm hlt hleast hfull
    | @finite n f hn hnlt hnleast hnfull =>
      rw [shiftLeft_mul_zpow m (min_le_left e f), shiftLeft_mul_zpow n (min_le_right e f),
        ← add_mul, ← Nat.cast_add]
      exact denotes_normalize _ _

theorem denotes_sub (hu : Denotes u p) (hv : Denotes v q) (hle : q ≤ p) :
    Denotes (u.sub .binary64 v) (nearest (p - q)) := by
  cases hv with
  | zero s =>
    rw [sub_zero, hu.nearest_eq]
    cases hu with
    | zero s' =>
      simp only [UnpackedFloat.sub]
      split <;> exact .zero _
    | finite hm hlt hleast hfull => exact .finite hm hlt hleast hfull
  | @finite n f hn hnlt hnleast hnfull =>
    have hpos : (0 : ℚ) < n * 2 ^ f := mul_pos (by exact_mod_cast hn) (zpow_two_pos f)
    cases hu with
    | zero s => exact absurd hpos (not_lt.mpr hle)
    | @finite m e hm hlt hleast hfull =>
      rw [shiftLeft_mul_zpow m (min_le_left e f), shiftLeft_mul_zpow n (min_le_right e f)] at hle ⊢
      have hmantissa : n <<< (f - min e f).toNat ≤ m <<< (e - min e f).toNat := by
        exact_mod_cast le_of_mul_le_mul_right hle (zpow_two_pos _)
      rw [← sub_mul, ← Nat.cast_sub hmantissa]
      simp only [UnpackedFloat.sub, decreaseExponent, Sign.apply, ← Nat.cast_sub hmantissa]
      exact denotes_normalize _ _

/-! ## Comparison -/

theorem cmp_finite (hm : m < 2 ^ 53) (hn : n < 2 ^ 53) (he : -1074 ≤ e) (hf : -1074 ≤ f)
    (hmfull : 2 ^ 52 ≤ m ∨ e = -1074) (hnfull : 2 ^ 52 ≤ n ∨ f = -1074) :
    (compare e f).then (compare m n) = cmp (m * 2 ^ e : ℚ) (n * 2 ^ f) := by
  -- A larger exponent means a larger number, as no digit is missing.
  have hlt {m n : ℕ} {e f : ℤ} (hm : m < 2 ^ 53) (hn : 2 ^ 52 ≤ n) (hef : e < f) :
      (m * 2 ^ e : ℚ) < n * 2 ^ f := by
    calc (m * 2 ^ e : ℚ) < 2 ^ 53 * 2 ^ e := by
          refine mul_lt_mul_of_pos_right ?_ (zpow_two_pos e)
          exact_mod_cast hm
      _ = 2 ^ 52 * 2 ^ (e + 1) := by
        rw [zpow_add₀ two_ne_zero]
        ring
      _ ≤ n * 2 ^ f := by
        refine mul_le_mul ?_ (zpow_le_zpow_right₀ one_le_two hef) (zpow_two_pos _).le
          (Nat.cast_nonneg n)
        exact_mod_cast hn
  rcases lt_trichotomy e f with hef | rfl | hef
  · rw [compare_lt_iff_lt.mpr hef, (cmp_eq_lt_iff _ _).mpr (hlt hm (by omega) hef)]
    rfl
  · rw [compare_eq_iff_eq.mpr rfl, cmp_mul_pos_right (zpow_two_pos e),
      Nat.strictMono_cast.cmp_map_eq, cmp_eq_compare]
    rfl
  · rw [compare_gt_iff_gt.mpr hef, (cmp_eq_gt_iff _ _).mpr (hlt hn (by omega) hef)]
    rfl

theorem Denotes.compare_eq (hu : Denotes u p) (hv : Denotes v q) :
    u.compare v = some (cmp p q) := by
  cases hu with
  | zero s =>
    cases hv with
    | zero s' =>
      rw [cmp_self_eq_eq]
      rfl
    | @finite n f hn _ _ _ =>
      have hpos : (0 : ℚ) < n * 2 ^ f := mul_pos (by exact_mod_cast hn) (zpow_two_pos f)
      rw [(cmp_eq_lt_iff _ _).mpr hpos]
      rfl
  | @finite m e hm hlt hleast hfull =>
    cases hv with
    | zero s =>
      have hpos : (0 : ℚ) < m * 2 ^ e := mul_pos (by exact_mod_cast hm) (zpow_two_pos e)
      rw [(cmp_eq_gt_iff _ _).mpr hpos]
      rfl
    | finite hn hnlt hnleast hnfull =>
      rw [← cmp_finite hlt hnlt hleast hnleast hfull hnfull]
      rfl

/-! ## Whole parts -/

theorem Denotes.toInt_eq (h : Denotes u q) (low high : ℤ) : u.toInt low high = ⌊q⌋₊ := by
  cases h with
  | zero s => simp [UnpackedFloat.toInt]
  | @finite m e hm _ _ _ =>
    have hexact : (m * 2 ^ e : ℚ) =
        (m <<< (e - 0).toNat : ℕ) / 2 ^ (0 - (e - (e - 0).toNat)).toNat := by
      rcases le_total 0 e with he | he
      · obtain ⟨k, rfl⟩ := Int.eq_ofNat_of_zero_le he
        simp [Nat.shiftLeft_eq]
      · obtain ⟨k, hk⟩ := Int.eq_ofNat_of_zero_le (neg_nonneg.mpr he)
        obtain rfl : e = -k := by omega
        simp [div_eq_mul_inv]
    simp only [UnpackedFloat.toInt, roundToInt, decreaseExponent, Sign.apply, shiftToExponent]
    rw [hexact, ((holds_exact _).shiftRight _).floor_eq]

end RoleLottery.Binary64
