import Mathlib.Algebra.Order.Floor.Semiring
import Mathlib.Data.Int.Log
import Mathlib.Data.Rat.Floor
import Mathlib.Tactic.FieldSimp
import Mathlib.Tactic.Linarith
import Mathlib.Tactic.NormNum
import Mathlib.Tactic.Ring

/-!
# The nearest double

The rational number that arithmetic in double precision puts in the place of an exact result, were
there no largest double: 53 binary digits, none of them below the place of `2 ^ -1074`, and the even
one where two are equally near.
-/

namespace RoleLottery.Binary64

variable {x p q z : ℚ} {n : ℕ} {e : ℤ}

/-! ## Whole numbers -/

/-- The nearest whole number, the even one where two are equally near. -/
def roundEven (x : ℚ) : ℕ :=
  let below := ⌊x⌋₊
  if x < below + 1 / 2 then below
  else if x = below + 1 / 2 then below + below % 2
  else below + 1

theorem roundEven_cases (x : ℚ) :
    (roundEven x = ⌊x⌋₊ ∧ x ≤ ⌊x⌋₊ + 1 / 2) ∨ (roundEven x = ⌊x⌋₊ + 1 ∧ ⌊x⌋₊ + 1 / 2 ≤ x) := by
  unfold roundEven
  dsimp only
  split
  · rename_i hlt
    exact .inl ⟨rfl, hlt.le⟩
  · rename_i hle
    split
    · rename_i heq
      rcases Nat.mod_two_eq_zero_or_one ⌊x⌋₊ with heven | hodd
      · exact .inl ⟨by rw [heven, add_zero], heq.le⟩
      · exact .inr ⟨by rw [hodd], heq.ge⟩
    · exact .inr ⟨rfl, not_lt.mp hle⟩

theorem abs_roundEven_sub_le (hx : 0 ≤ x) (k : ℤ) : |(roundEven x : ℚ) - x| ≤ |(k : ℚ) - x| := by
  have hbelow := Nat.floor_le hx
  have habove := Nat.lt_floor_add_one x
  have hk : (k : ℚ) ≤ (⌊x⌋₊ : ℚ) ∨ (⌊x⌋₊ : ℚ) + 1 ≤ k := by
    rcases le_or_gt k (⌊x⌋₊ : ℤ) with hk | hk
    · exact .inl (by exact_mod_cast hk)
    · exact .inr (by exact_mod_cast hk)
  rcases roundEven_cases x with ⟨hround, hhalf⟩ | ⟨hround, hhalf⟩
  · rw [hround, abs_of_nonpos (by linarith), le_abs]
    rcases hk with hk | hk
    · exact .inr (by linarith)
    · exact .inl (by linarith)
  · rw [hround, Nat.cast_add_one, abs_of_nonneg (by linarith), le_abs]
    rcases hk with hk | hk
    · exact .inr (by linarith)
    · exact .inl (by linarith)

theorem roundEven_le (hx : 0 ≤ x) (h : x < n) : roundEven x ≤ n := by
  have hfloor : ⌊x⌋₊ < n := (Nat.floor_lt hx).mpr h
  rcases roundEven_cases x with ⟨hround, -⟩ | ⟨hround, -⟩ <;> omega

theorem le_roundEven (h : (n : ℚ) ≤ x) : n ≤ roundEven x := by
  have hfloor : n ≤ ⌊x⌋₊ := Nat.le_floor h
  rcases roundEven_cases x with ⟨hround, -⟩ | ⟨hround, -⟩ <;> omega

/-! ## Doubles -/

/-- The place of the last binary digit that is kept. -/
def place (q : ℚ) : ℤ := max (Int.log 2 q - 52) (-1074)

/-- The nearest double, were there no largest one. -/
def nearest (q : ℚ) : ℚ := roundEven (q / 2 ^ place q) * 2 ^ place q

/-- Doubles without regard to the largest one. -/
def Representable (q : ℚ) : Prop := ∃ (m : ℕ) (e : ℤ), m ≤ 2 ^ 53 ∧ -1074 ≤ e ∧ q = m * 2 ^ e

theorem le_place (q : ℚ) : -1074 ≤ place q := le_max_right _ _

theorem zpow_two_pos (e : ℤ) : (0 : ℚ) < 2 ^ e := zpow_pos two_pos e

theorem lt_zpow_place (q : ℚ) : q < 2 ^ 53 * 2 ^ place q := by
  have hlog : q < 2 ^ (Int.log 2 q + 1) := by
    exact_mod_cast Int.lt_zpow_succ_log_self (by decide : 1 < 2) q
  have hplace : Int.log 2 q + 1 ≤ 53 + place q := by
    have hle : Int.log 2 q - 52 ≤ place q := le_max_left _ _
    omega
  calc q < 2 ^ (Int.log 2 q + 1) := hlog
    _ ≤ 2 ^ (53 + place q) := zpow_le_zpow_right₀ one_le_two hplace
    _ = 2 ^ 53 * 2 ^ place q := by
      rw [zpow_add₀ two_ne_zero]
      rfl

theorem zpow_place_le (hq : 0 < q) (hplace : place q ≠ -1074) : 2 ^ 52 * 2 ^ place q ≤ q := by
  have hlog : place q = Int.log 2 q - 52 := (max_choice _ _).resolve_right hplace
  calc (2 : ℚ) ^ 52 * 2 ^ place q = 2 ^ (52 + place q) := by
        rw [zpow_add₀ two_ne_zero]
        rfl
    _ = 2 ^ Int.log 2 q := by
      rw [hlog]
      congr 1
      omega
    _ ≤ q := by exact_mod_cast Int.zpow_log_le_self (by decide : 1 < 2) hq

@[simp]
theorem nearest_zero : nearest 0 = 0 := by
  simp [nearest, roundEven]

theorem roundEven_place_le (hq : 0 ≤ q) : roundEven (q / 2 ^ place q) ≤ 2 ^ 53 := by
  refine roundEven_le (div_nonneg hq (zpow_two_pos _).le) ?_
  rw [div_lt_iff₀ (zpow_two_pos _)]
  exact_mod_cast lt_zpow_place q

theorem representable_nearest (hq : 0 ≤ q) : Representable (nearest q) :=
  ⟨_, place q, roundEven_place_le hq, le_place q, rfl⟩

theorem nearest_nonneg (q : ℚ) : 0 ≤ nearest q :=
  mul_nonneg (Nat.cast_nonneg _) (zpow_two_pos _).le

theorem abs_nearest_sub_le (hq : 0 < q) (hz : Representable z) : |nearest q - q| ≤ |z - q| := by
  have hplace := zpow_two_pos (place q)
  have hquotient : 0 ≤ q / 2 ^ place q := div_nonneg hq.le hplace.le
  -- Multiples of the last place first.
  have hmultiple (k : ℤ) : |nearest q - q| ≤ |k * 2 ^ place q - q| := by
    have hscale (y : ℚ) : |y * 2 ^ place q - q| = |y - q / 2 ^ place q| * 2 ^ place q := by
      rw [← abs_of_pos hplace, ← abs_mul, abs_of_pos hplace, sub_mul,
        div_mul_cancel₀ q hplace.ne']
    rw [nearest, hscale, hscale]
    exact mul_le_mul_of_nonneg_right (abs_roundEven_sub_le hquotient k) hplace.le
  obtain ⟨m, e, hm, he, rfl⟩ := hz
  rcases le_or_gt (place q) e with hle | hlt
  · have hk : ((m * 2 ^ (e - place q).toNat : ℤ) : ℚ) * 2 ^ place q = m * 2 ^ e := by
      push_cast
      rw [mul_assoc, ← zpow_natCast, ← zpow_add₀ two_ne_zero]
      congr 2
      omega
    rw [← hk]
    exact hmultiple _
  · -- A double with further digits is below the least one with the digits of `q`.
    have hleast := zpow_place_le hq (by omega)
    have hz : (m : ℚ) * 2 ^ e ≤ 2 ^ 52 * 2 ^ place q := by
      calc (m : ℚ) * 2 ^ e ≤ 2 ^ 53 * 2 ^ (place q - 1) := by
            apply mul_le_mul (by exact_mod_cast hm)
              (zpow_le_zpow_right₀ one_le_two (by omega)) (zpow_two_pos e).le (by positivity)
        _ = 2 ^ 52 * 2 ^ place q := by
          rw [zpow_sub₀ two_ne_zero]
          ring
    have hnear := hmultiple (2 ^ 52)
    rw [Int.cast_pow, Int.cast_ofNat, abs_of_nonpos (sub_nonpos.mpr hleast)] at hnear
    rw [abs_of_nonpos (sub_nonpos.mpr (hz.trans hleast))]
    linarith

theorem nearest_eq (hz : Representable z) (hnonneg : 0 ≤ z) : nearest z = z := by
  rcases hnonneg.eq_or_lt with rfl | hpos
  · exact nearest_zero
  · have hnear := abs_nearest_sub_le hpos hz
    rw [sub_self, abs_zero] at hnear
    exact sub_eq_zero.mp (abs_nonpos_iff.mp hnear)

theorem add_le_of_nearer {a b : ℚ} (hlt : b < a) (hnear : |a - q| ≤ |b - q|) : a + b ≤ 2 * q := by
  have hsq := sq_le_sq.mpr hnear
  nlinarith

theorem nearest_mono (hp : 0 ≤ p) (hpq : p ≤ q) : nearest p ≤ nearest q := by
  rcases hp.eq_or_lt with rfl | hp
  · rw [nearest_zero]
    exact nearest_nonneg q
  rcases hpq.eq_or_lt with rfl | hlt
  · exact le_rfl
  have hq := hp.trans hlt
  by_contra hcross
  have hcross := not_le.mp hcross
  have hbelow := add_le_of_nearer hcross (abs_nearest_sub_le hp (representable_nearest hq.le))
  -- Seen from `q` the larger of the two would be the nearer one.
  have habove : 2 * q ≤ nearest p + nearest q := by
    have hnear := abs_nearest_sub_le hq (representable_nearest hp.le)
    have hsq := sq_le_sq.mpr hnear
    nlinarith
  linarith

theorem le_nearest (hz : Representable z) (hnonneg : 0 ≤ z) (h : z ≤ q) : z ≤ nearest q :=
  nearest_eq hz hnonneg ▸ nearest_mono hnonneg h

theorem nearest_le (hz : Representable z) (hq : 0 ≤ q) (h : q ≤ z) : nearest q ≤ z :=
  nearest_eq hz (hq.trans h) ▸ nearest_mono hq h

theorem representable_natCast (h : n ≤ 2 ^ 53) : Representable n :=
  ⟨n, 0, h, by decide, by simp⟩

theorem representable_zpow (h : -1074 ≤ e) : Representable (2 ^ e) :=
  ⟨1, e, by norm_num, h, by simp⟩

theorem nearest_lt_bound (hq : 0 ≤ q) (h : q ≤ 2 ^ 1023) : nearest q < 2 ^ 1024 := by
  have hbound : (2 : ℚ) ^ (1023 : ℤ) = 2 ^ 1023 := by
    rw [show (1023 : ℤ) = (1023 : ℕ) from rfl, zpow_natCast]
  calc nearest q ≤ 2 ^ (1023 : ℤ) :=
        nearest_le (representable_zpow (by norm_num)) hq (hbound ▸ h)
    _ < 2 ^ 1024 := by
      rw [hbound]
      exact pow_lt_pow_right₀ one_lt_two (by norm_num)

end RoleLottery.Binary64
