import RoleLottery.Proofs.Binary64.Nearest

/-!
# Rounding of mantissas

The arithmetic of `Float` computes with a mantissa, a round bit and a sticky bit. They tell of an
exact result what its rounding depends on. Rounded to the digits that a double has, the result is
the nearest double.
-/

namespace RoleLottery.Binary64

open Float.Model Float.Model.UnpackedFloat

variable {x q : ℚ} {m n : ℕ} {e : ℤ} {em : ExtendedMantissa} {accuracy : Accuracy}

/-! ## What the residual bits tell -/

/-- The mantissa is the whole part of `x`, and the bits tell whether one half is reached and whether
there is anything else. -/
structure Holds (em : ExtendedMantissa) (x : ℚ) : Prop where
  lower : em.mantissa ≤ x
  upper : x < em.mantissa + 1
  half : em.roundBit = true ↔ em.mantissa + 1 / 2 ≤ x
  rest : em.stickyBit = true ↔ x ≠ em.mantissa ∧ x ≠ em.mantissa + 1 / 2

theorem Holds.shiftRightOne (h : Holds em x) : Holds em.shiftRightOne (x / 2) := by
  obtain ⟨m, half, rest⟩ := em
  obtain ⟨hlower, hupper, hhalf, hrest⟩ := h
  dsimp only at hlower hupper hhalf hrest
  have hdiv : (m : ℚ) = 2 * (m / 2 : ℕ) + (m % 2 : ℕ) := by
    exact_mod_cast (Nat.div_add_mod m 2).symm
  -- Something is lost below the mantissa exactly when `x` is not whole.
  have hlost : (half || rest) = true ↔ x ≠ m := by
    rw [Bool.or_eq_true, hhalf, hrest]
    constructor
    · rintro (hx | ⟨hx, -⟩)
      · linarith
      · exact hx
    · intro hx
      by_cases hx' : x = m + 1 / 2
      · exact .inl hx'.ge
      · exact .inr ⟨hx, hx'⟩
  rcases Nat.mod_two_eq_zero_or_one m with hmod | hmod <;>
    rw [hmod] at hdiv <;> push_cast at hdiv <;> rw [hdiv] at hlower hupper hlost
  · constructor <;> dsimp only [ExtendedMantissa.shiftRightOne]
    · linarith
    · linarith
    · simp only [hmod, bne_self_eq_false, Bool.false_eq_true, false_iff, not_le]
      linarith
    · rw [hlost]
      constructor
      · exact fun hx => ⟨fun he => hx (by linarith), fun he => by linarith⟩
      · exact fun hx he => hx.1 (by linarith)
  · constructor <;> dsimp only [ExtendedMantissa.shiftRightOne]
    · linarith
    · linarith
    · simp only [hmod]
      exact iff_of_true rfl (by linarith)
    · rw [hlost]
      constructor
      · exact fun hx => ⟨fun he => by linarith, fun he => hx (by linarith)⟩
      · exact fun hx he => hx.2 (by linarith)

theorem Holds.shiftRight (h : Holds em x) (n : ℕ) : Holds (em >>> n) (x / 2 ^ n) := by
  induction n with
  | zero => simpa [HShiftRight.hShiftRight, Nat.repeat] using h
  | succ n ih =>
    rw [pow_succ, ← div_div]
    exact ih.shiftRightOne

theorem Holds.floor_eq (h : Holds em x) : ⌊x⌋₊ = em.mantissa :=
  (Nat.floor_eq_iff ((Nat.cast_nonneg _).trans h.lower)).mpr ⟨h.lower, h.upper⟩

theorem Holds.roundedMantissa_eq (h : Holds em x) : em.roundedMantissa = roundEven x := by
  have hfloor := h.floor_eq
  obtain ⟨m, half, rest⟩ := em
  obtain ⟨hlower, hupper, hhalf, hrest⟩ := h
  dsimp only at hlower hupper hhalf hrest hfloor
  unfold roundEven
  dsimp only
  rw [hfloor]
  cases half with
  | false =>
    have hlt : x < m + 1 / 2 := by simpa using hhalf
    rw [if_pos hlt]
    cases rest <;> rfl
  | true =>
    have hle : (m : ℚ) + 1 / 2 ≤ x := hhalf.mp rfl
    rw [if_neg (not_lt.mpr hle)]
    cases rest with
    | false =>
      have heq : x = m + 1 / 2 := by
        by_contra hne
        exact absurd (hrest.mpr ⟨fun he => by linarith, hne⟩) (by decide)
      rw [if_pos heq]
      rfl
    | true =>
      rw [if_neg (hrest.mp rfl).2]
      rfl

/-- Where a fraction lies that an accuracy stands for. -/
def Places : Accuracy → ℚ → Prop
  | .exact, x => x = 0
  | .inexact .lt, x => 0 < x ∧ x < 1 / 2
  | .inexact .eq, x => x = 1 / 2
  | .inexact .gt, x => 1 / 2 < x ∧ x < 1

theorem Places.holds (h : Places accuracy x) (m : ℕ) :
    Holds (.ofMantissaAndAccuracy m accuracy) (m + x) := by
  cases accuracy with
  | exact =>
    obtain rfl : x = 0 := h
    constructor <;> simp [ExtendedMantissa.ofMantissaAndAccuracy]
  | inexact r =>
    cases r with
    | lt =>
      obtain ⟨hpos, hlt⟩ := h
      constructor <;> simp [ExtendedMantissa.ofMantissaAndAccuracy] <;> grind
    | eq =>
      obtain rfl : x = 1 / 2 := h
      constructor <;> simp [ExtendedMantissa.ofMantissaAndAccuracy]
      grind
    | gt =>
      obtain ⟨hlt, hone⟩ := h
      constructor <;> simp [ExtendedMantissa.ofMantissaAndAccuracy] <;> grind

theorem holds_exact (m : ℕ) : Holds (.ofMantissaAndAccuracy m .exact) m := by
  have h := Places.holds (show Places .exact 0 from rfl) m
  rwa [add_zero] at h

theorem places_accuracyOfFraction {num den : ℕ} (h : num < den) :
    Places (accuracyOfFraction num den) (num / den) := by
  have hden : (0 : ℚ) < den := by exact_mod_cast h.pos
  unfold accuracyOfFraction
  split
  · rename_i hzero
    simp [Places, hzero]
  · rename_i hnum
    have hpos : (0 : ℚ) < num / den := by
      have hnum : (0 : ℚ) < num := by exact_mod_cast Nat.pos_of_ne_zero hnum
      positivity
    have hone : (num : ℚ) / den < 1 := (div_lt_one hden).mpr (by exact_mod_cast h)
    rcases lt_trichotomy (2 * num) den with hlt | heq | hgt
    · rw [Nat.compare_eq_lt.mpr hlt]
      have hlt : (2 * num : ℚ) < den := by exact_mod_cast hlt
      exact ⟨hpos, (div_lt_div_iff₀ hden two_pos).mpr (by linarith)⟩
    · rw [Nat.compare_eq_eq.mpr heq]
      have heq : (2 * num : ℚ) = den := by exact_mod_cast heq
      exact (div_eq_div_iff hden.ne' two_ne_zero).mpr (by linarith)
    · rw [Nat.compare_eq_gt.mpr hgt]
      have hgt : (den : ℚ) < 2 * num := by exact_mod_cast hgt
      exact ⟨(div_lt_div_iff₀ two_pos hden).mpr (by linarith), hone⟩

/-! ## The place of the last digit -/

theorem targetExponent_eq (t : ℤ) : Format.binary64.targetExponent t = max (t - 53) (-1074) := by
  show max (t - (53 : ℕ)) (-1022 - (52 : ℕ)) = _
  norm_num

theorem log_eq {k : ℤ} (hle : 2 ^ k ≤ q) (hlt : q < 2 ^ (k + 1)) : Int.log 2 q = k := by
  have hq : 0 < q := (zpow_two_pos k).trans_le hle
  have hge : k ≤ Int.log 2 q :=
    (Int.zpow_le_iff_le_log one_lt_two hq).mp (by exact_mod_cast hle)
  have hlt : Int.log 2 q < k + 1 :=
    (Int.lt_zpow_iff_log_lt one_lt_two hq).mp (by exact_mod_cast hlt)
  omega

theorem log_of_whole (hm : 0 < m) (hle : m * 2 ^ e ≤ q) (hlt : q < (m + 1) * 2 ^ e) :
    Int.log 2 q = m.log2 + e := by
  have hpos := (zpow_two_pos e).le
  apply log_eq
  · calc (2 : ℚ) ^ (m.log2 + e : ℤ) = 2 ^ m.log2 * 2 ^ e := by
          rw [zpow_add₀ two_ne_zero, zpow_natCast]
      _ ≤ m * 2 ^ e := by
        refine mul_le_mul_of_nonneg_right ?_ hpos
        exact_mod_cast Nat.log2_self_le hm.ne'
      _ ≤ q := hle
  · calc q < (m + 1) * 2 ^ e := hlt
      _ ≤ 2 ^ (m.log2 + 1) * 2 ^ e := by
        refine mul_le_mul_of_nonneg_right ?_ hpos
        exact_mod_cast Nat.lt_log2_self
      _ = 2 ^ (m.log2 + e + 1 : ℤ) := by
        rw [← zpow_natCast, ← zpow_add₀ two_ne_zero]
        congr 1
        push_cast
        omega

/-- The whole part of a result knows the place, when the places it is given at are fine enough. -/
theorem targetExponent_eq_place (hq : 0 < q) (he : e ≤ place q) (hle : m * 2 ^ e ≤ q)
    (hlt : q < (m + 1) * 2 ^ e) :
    Format.binary64.targetExponent (totalExponent m e) = place q := by
  rw [targetExponent_eq, totalExponent]
  rcases Nat.eq_zero_or_pos m with rfl | hm
  · have hlog : Int.log 2 q < e := by
      refine (Int.lt_zpow_iff_log_lt one_lt_two hq).mp ?_
      simpa using hlt
    have hplace : place q = max (Int.log 2 q - 52) (-1074) := rfl
    rw [Nat.log2_zero]
    omega
  · rw [place, log_of_whole hm hle hlt]
    omega

/-! ## Rounding -/

/-- A finite number that is not negative, with no more digits than a double has. -/
inductive Denotes : UnpackedFloat → ℚ → Prop
  | zero (s : Sign) : Denotes (.zero s) 0
  | finite {m : ℕ} {e : ℤ} (hm : 0 < m) : m < 2 ^ 53 → -1074 ≤ e → 2 ^ 52 ≤ m ∨ e = -1074 →
    Denotes (.finite .positive m e hm) (m * 2 ^ e)

theorem shiftToTargetExponent_of_lt (hm : m < 2 ^ 53) (he : -1074 ≤ e) :
    shiftToTargetExponent .binary64 m e .exact = (⟨m, false, false⟩, e) := by
  have hlog : m.log2 < 53 := by
    rcases Nat.eq_zero_or_pos m with rfl | hpos
    · decide
    · exact (Nat.log2_lt hpos.ne').mpr hm
  have hshift : (Format.binary64.targetExponent (totalExponent m e) - e).toNat = 0 := by
    rw [targetExponent_eq, totalExponent]
    omega
  simp [shiftToTargetExponent, shiftToExponent, hshift, HShiftRight.hShiftRight, Nat.repeat,
    ExtendedMantissa.ofMantissaAndAccuracy]

/-- When all digits carry, the mantissa has one digit too many. -/
theorem shiftToTargetExponent_carry (he : -1074 ≤ e) :
    shiftToTargetExponent .binary64 (2 ^ 53) e .exact = (⟨2 ^ 52, false, false⟩, e + 1) := by
  have htarget : Format.binary64.targetExponent (totalExponent (2 ^ 53) e) = e + 1 := by
    rw [targetExponent_eq, totalExponent, Nat.log2_two_pow]
    omega
  rw [shiftToTargetExponent, htarget, shiftToExponent]
  simp [HShiftRight.hShiftRight, Nat.repeat, ExtendedMantissa.ofMantissaAndAccuracy,
    ExtendedMantissa.shiftRightOne]

theorem Holds.shifted (h : Holds (.ofMantissaAndAccuracy m accuracy) (q / 2 ^ e))
    (hq : 0 < q) (he : e ≤ place q) :
    (shiftToTargetExponent .binary64 m e accuracy).2 = place q ∧
      Holds (shiftToTargetExponent .binary64 m e accuracy).1 (q / 2 ^ place q) := by
  have hpos := zpow_two_pos e
  have hwhole : (ExtendedMantissa.ofMantissaAndAccuracy m accuracy).mantissa = m := by
    unfold ExtendedMantissa.ofMantissaAndAccuracy
    split <;> rfl
  have htarget := targetExponent_eq_place hq he
    ((le_div_iff₀ hpos).mp (hwhole ▸ h.lower)) ((div_lt_iff₀ hpos).mp (hwhole ▸ h.upper))
  have hshift : e + (place q - e).toNat = place q := by omega
  rw [shiftToTargetExponent, htarget, shiftToExponent]
  refine ⟨hshift, ?_⟩
  have hquotient : q / 2 ^ place q = q / 2 ^ e / 2 ^ (place q - e).toNat := by
    rw [div_div, ← zpow_natCast, ← zpow_add₀ two_ne_zero, hshift]
  rw [hquotient]
  exact h.shiftRight _

theorem Holds.denotes_roundWithAccuracy
    (h : Holds (.ofMantissaAndAccuracy m accuracy) (q / 2 ^ e)) (hq : 0 < q) (he : e ≤ place q) :
    Denotes (roundWithAccuracy .binary64 .positive m e accuracy) (nearest q) := by
  obtain ⟨hplace, hem⟩ := h.shifted hq he
  have hround := hem.roundedMantissa_eq
  have hcarry := roundEven_place_le hq.le
  unfold roundWithAccuracy nearest
  generalize shiftToTargetExponent .binary64 m e accuracy = first at hplace hround
  obtain ⟨em, e'⟩ := first
  dsimp only at hplace hround ⊢
  subst hplace
  rw [hround]
  generalize hr : roundEven (q / 2 ^ place q) = r at hcarry
  rcases hcarry.lt_or_eq with hlt | rfl
  · rw [shiftToTargetExponent_of_lt hlt (le_place q)]
    dsimp only
    by_cases hzero : r = 0
    · rw [dif_pos hzero, hzero, Nat.cast_zero, zero_mul]
      exact .zero _
    · rw [dif_neg hzero]
      refine .finite (Nat.pos_of_ne_zero hzero) hlt (le_place q) ?_
      by_cases hleast : place q = -1074
      · exact .inr hleast
      · refine .inl (hr ▸ le_roundEven ?_)
        rw [le_div_iff₀ (zpow_two_pos _)]
        exact_mod_cast zpow_place_le hq hleast
  · rw [shiftToTargetExponent_carry (le_place q)]
    have hvalue : ((2 ^ 53 : ℕ) : ℚ) * 2 ^ place q = (2 ^ 52 : ℕ) * 2 ^ (place q + 1) := by
      rw [zpow_add₀ two_ne_zero]
      push_cast
      ring
    have hplace : -1074 ≤ place q + 1 := (le_place q).trans (by omega)
    rw [hvalue]
    exact .finite (by norm_num) (by norm_num) hplace (.inl le_rfl)

end RoleLottery.Binary64
