import RoleLottery.Proofs.Binary64.Thousandths
import RoleLottery.Proofs.Shares

/-!
# Portions in double precision

How often a share is halved at most is a bound that rounding keeps, since powers of two are doubles
down to the least one, `2 ^ (-1074)`. A share that is divided among weights is halved as often as
the largest weight has to be to get below the weight, and as often as the number of weights takes.
-/

namespace RoleLottery.Binary64

variable {x y : Float} {p q t : ℚ} {a b k n : ℕ} {weights : List Float}

/-! ## Halvings -/

/-- A number up to one that `k` halvings of one do not get below, as far as there are doubles. -/
def Halved (k : ℕ) (x : Float) : Prop :=
  ∃ q, HasValue x q ∧ q ≤ 1 ∧ (k ≤ 1074 → 2 ^ (-(k : ℤ)) ≤ q)

theorem Halved.pos (h : Halved k x) (hk : k ≤ 1074) : 0 < x := by
  obtain ⟨q, hq, -, hle⟩ := h
  exact (hasValue_zero.lt_iff hq).mpr ((zpow_two_pos _).trans_le (hle hk))

theorem halved_one : Halved 0 1 := ⟨1, hasValue_one, le_rfl, fun _ => by simp⟩

theorem Yields.halved (h : Yields x (nearest q)) (hq : 0 ≤ q) (hle : q ≤ 1)
    (hk : k ≤ 1074 → 2 ^ (-(k : ℤ)) ≤ q) : Halved k x := by
  have hone : Representable 1 := by
    exact_mod_cast representable_natCast (n := 1) (by norm_num)
  have hnearest := nearest_le hone hq hle
  have hbound : nearest q < 2 ^ 1024 :=
    hnearest.trans_lt (one_lt_pow₀ one_lt_two (by norm_num))
  refine ⟨nearest q, h.hasValue hbound, hnearest, fun hsmall => ?_⟩
  exact le_nearest (representable_zpow (by omega)) (zpow_two_pos _).le (hk hsmall)

theorem zpow_neg_add (a b : ℕ) :
    (2 : ℚ) ^ (-((a + b : ℕ) : ℤ)) = 2 ^ (-(a : ℤ)) * 2 ^ (-(b : ℤ)) := by
  rw [← zpow_add₀ two_ne_zero]
  congr 1
  push_cast
  ring

theorem Halved.mul (hx : Halved a x) (hy : Halved b y) : Halved (a + b) (x * y) := by
  obtain ⟨p, hp, hple, ha⟩ := hx
  obtain ⟨q, hq, hqle, hb⟩ := hy
  refine (hp.mul hq).halved (mul_nonneg hp.nonneg hq.nonneg) (mul_le_one₀ hple hq.nonneg hqle) ?_
  intro hk
  rw [zpow_neg_add]
  exact mul_le_mul (ha (by omega)) (hb (by omega)) (zpow_two_pos _).le hp.nonneg

theorem Halved.div (hx : Halved a x) (hy : HasValue y t) (hone : 1 ≤ t) (ht : t ≤ 2 ^ b) :
    Halved (a + b) (x / y) := by
  obtain ⟨p, hp, hple, ha⟩ := hx
  have hpos : 0 < t := zero_lt_one.trans_le hone
  refine (hp.div hy hpos).halved (div_nonneg hp.nonneg hpos.le) ?_ fun hk => ?_
  · exact div_le_one_of_le₀ (hple.trans hone) hpos.le
  · rw [zpow_neg_add, le_div_iff₀ hpos]
    calc (2 : ℚ) ^ (-(a : ℤ)) * 2 ^ (-(b : ℤ)) * t ≤ 2 ^ (-(a : ℤ)) * 2 ^ (-(b : ℤ)) * 2 ^ b := by
          gcongr
      _ = 2 ^ (-(a : ℤ)) := by
        rw [mul_assoc, ← zpow_natCast, ← zpow_add₀ two_ne_zero, neg_add_cancel, zpow_zero, mul_one]
      _ ≤ p := ha (by omega)

theorem HasValue.halved_div (hx : HasValue x p) (hy : HasValue y q) (hpos : 0 < p) (hle : p ≤ q) :
    Halved (Nat.clog 2 ⌈q / p⌉₊) (x / y) := by
  have hq : 0 < q := hpos.trans_le hle
  refine (hx.div hy hq).halved (div_nonneg hpos.le hq.le) (div_le_one_of_le₀ hle hq.le) fun _ => ?_
  have hclog : q / p ≤ 2 ^ Nat.clog 2 ⌈q / p⌉₊ := by
    refine (Nat.le_ceil _).trans ?_
    exact_mod_cast Nat.le_pow_clog one_lt_two _
  rw [zpow_neg, zpow_natCast, inv_le_comm₀ (by positivity) (div_pos hpos hq), inv_div]
  exact hclog

/-! ## Totals -/

/-- From `2 ^ 53` on, adding one changes nothing. -/
theorem nearest_add_le (hp : 0 ≤ p) (hle : p ≤ (min n (2 ^ 53) : ℕ)) (hq : 0 ≤ q) (hone : q ≤ 1) :
    nearest (p + q) ≤ (min (n + 1) (2 ^ 53) : ℕ) := by
  rcases Nat.lt_or_ge n (2 ^ 53) with hn | hn
  · rw [Nat.min_eq_left hn.le] at hle
    rw [Nat.min_eq_left hn]
    refine nearest_le (representable_natCast hn) (add_nonneg hp hq) ?_
    push_cast
    exact add_le_add hle hone
  · rw [Nat.min_eq_right hn] at hle
    rw [Nat.min_eq_right (hn.trans (Nat.le_succ n))]
    have hstay : nearest ((2 ^ 53 : ℕ) + 1) = (2 ^ 53 : ℕ) := by
      decide +kernel
    rw [← hstay]
    exact nearest_mono (add_nonneg hp hq) (add_le_add hle hone)

/-- A sum of numbers up to one is at least each of them, and no larger than their number. -/
theorem HasValue.exists_foldl_add {ratios : List Float}
    (hratios : ∀ r ∈ ratios, HasValue r (exact r) ∧ exact r ≤ 1) (hx : HasValue x p)
    (hn : p ≤ (min n (2 ^ 53) : ℕ)) :
    ∃ t, HasValue (ratios.foldl Weight.add x) t ∧ p ≤ t ∧ (∀ r ∈ ratios, exact r ≤ t) ∧
      t ≤ (min (n + ratios.length) (2 ^ 53) : ℕ) := by
  induction ratios generalizing x p n with
  | nil => exact ⟨p, hx, le_rfl, by simp, hn⟩
  | cons r ratios ih =>
    obtain ⟨⟨hr, hone⟩, hratios⟩ := List.forall_mem_cons.mp hratios
    have hsum := nearest_add_le hx.nonneg hn hr.nonneg hone
    have hbound : nearest (p + exact r) < 2 ^ 1024 := by
      refine (hsum.trans (Nat.cast_le.mpr (Nat.min_le_right _ _))).trans_lt ?_
      rw [Nat.cast_pow, Nat.cast_ofNat]
      exact pow_lt_pow_right₀ one_lt_two (by norm_num)
    have hp := le_nearest (Denotes.representable hx) hx.nonneg
      (le_add_of_nonneg_right hr.nonneg : p ≤ p + exact r)
    have hr' := le_nearest (Denotes.representable hr) hr.nonneg
      (le_add_of_nonneg_left hx.nonneg : exact r ≤ p + exact r)
    obtain ⟨t, ht, hle, hall, hlen⟩ := ih hratios ((hx.add hr).hasValue hbound) hsum
    refine ⟨t, ht, hp.trans hle, List.forall_mem_cons.mpr ⟨hr'.trans hle, hall⟩, ?_⟩
    rwa [List.length_cons, ← Nat.add_assoc, Nat.add_right_comm]

theorem HasValue.foldl_larger (hweights : ∀ w ∈ weights, HasValue w (exact w))
    (hx : HasValue x p) :
    HasValue (weights.foldl Weight.larger x) ((weights.map exact).foldl Weight.larger p) := by
  induction weights generalizing x p with
  | nil => exact hx
  | cons w weights ih =>
    obtain ⟨hw, hweights⟩ := List.forall_mem_cons.mp hweights
    refine ih hweights ?_
    have hlt : Weight.lt x w = Weight.lt p (exact w) := by
      rw [Bool.eq_iff_iff, Weight.lt_rat, decide_eq_true_eq, ← hx.lt_iff hw]
      exact decide_eq_true_iff
    unfold Weight.larger
    rw [hlt]
    split
    · exact hw
    · exact hx

/-- The ratios of all weights to the largest one, which is one of them, sum up to one at least. -/
theorem HasValue.exists_total {largest : Float} {bound : ℚ} (hlargest : HasValue largest bound)
    (hmem : bound ∈ weights.map exact)
    (hweights : ∀ w ∈ weights, HasValue w (exact w) ∧ 0 < exact w ∧ exact w ≤ bound) :
    ∃ t, HasValue ((weights.map (Weight.div · largest)).foldl Weight.add Weight.zero) t ∧ 1 ≤ t ∧
      t ≤ 2 ^ Nat.clog 2 weights.length := by
  have hratio (w : Float) (hw : w ∈ weights) :
      Halved (Nat.clog 2 ⌈bound / exact w⌉₊) (Weight.div w largest) := by
    obtain ⟨hvalue, hpos, hle⟩ := hweights w hw
    exact hvalue.halved_div hlargest hpos hle
  have hratios : ∀ r ∈ weights.map (Weight.div · largest), HasValue r (exact r) ∧ exact r ≤ 1 := by
    intro r hr
    obtain ⟨w, hw, rfl⟩ := List.mem_map.mp hr
    obtain ⟨q, hq, hone, -⟩ := hratio w hw
    rw [hq.exact_eq]
    exact ⟨hq, hone⟩
  obtain ⟨t, ht, -, hall, hlen⟩ :=
    HasValue.exists_foldl_add (n := 0) hratios hasValue_zero (by simp)
  refine ⟨t, ht, ?_, ?_⟩
  · -- The ratio of the largest weight is one.
    obtain ⟨w, hw, rfl⟩ := List.mem_map.mp hmem
    obtain ⟨q, hq, -, hsmall⟩ := hratio w hw
    have hle := hall _ (List.mem_map_of_mem hw)
    rw [hq.exact_eq] at hle
    rw [div_self (hweights w hw).2.1.ne', Nat.ceil_one, Nat.clog_one_right] at hsmall
    simpa using (hsmall (by norm_num)).trans hle
  · have hmin : min (0 + (weights.map (Weight.div · largest)).length) (2 ^ 53) ≤
        2 ^ Nat.clog 2 weights.length := by
      rw [Nat.zero_add, List.length_map]
      exact (Nat.min_le_left _ _).trans (Nat.le_pow_clog one_lt_two _)
    exact hlen.trans (by exact_mod_cast hmin)

/-! ## Portions -/

/-- How often a share is halved at most on the way to one of several weights. -/
def halvingsAmong (weights : List Float) (w : Float) : ℕ :=
  Nat.clog 2 ⌈(weights.map exact).foldl Weight.larger 0 / exact w⌉₊ + Nat.clog 2 weights.length

/-- Every part of a share is halved as often as the share, and then among the weights. -/
theorem Halved.exists_divide_eq {share : Float} (hshare : Halved k share)
    (hweights : ∀ w ∈ weights, w.isFinite = true ∧ 0 < w) :
    ∃ f : Float → Float, divide share weights = weights.map f ∧
      ∀ w ∈ weights, Halved (k + halvingsAmong weights w) (f w) := by
  refine ⟨_, rfl, fun w hw => ?_⟩
  have hlarger := (le_foldl_larger (weights.map exact) 0).2
  have hmem := foldl_larger_mem (weights.map exact) 0
  have hvalue (v : Float) (hv : v ∈ weights) : HasValue v (exact v) :=
    hasValue_exact (hweights v hv).1 (nonneg_of_pos (hweights v hv).2)
  have hlargest : HasValue (weights.foldl Weight.larger Weight.zero)
      ((weights.map exact).foldl Weight.larger 0) :=
    HasValue.foldl_larger hvalue hasValue_zero
  unfold halvingsAmong
  generalize weights.foldl Weight.larger Weight.zero = largest,
    (weights.map exact).foldl Weight.larger 0 = bound at hlargest hlarger hmem ⊢
  have hall (v : Float) (hv : v ∈ weights) : HasValue v (exact v) ∧ 0 < exact v ∧ exact v ≤ bound :=
    ⟨hvalue v hv, (hasValue_zero.lt_iff (hvalue v hv)).mp (hweights v hv).2,
      hlarger _ (List.mem_map_of_mem hv)⟩
  obtain ⟨-, hpos, hle⟩ := hall w hw
  have hbound : 0 < bound := hpos.trans_le hle
  obtain ⟨t, ht, hone, hlength⟩ := hlargest.exists_total (hmem.resolve_left hbound.ne') hall
  have hlargestpos : Weight.isPositive largest = true :=
    decide_eq_true ((hasValue_zero.lt_iff hlargest).mpr hbound)
  have htotalpos : Weight.isPositive
      ((weights.map (Weight.div · largest)).foldl Weight.add Weight.zero) = true :=
    decide_eq_true ((hasValue_zero.lt_iff ht).mpr (zero_lt_one.trans_le hone))
  rw [if_pos hlargestpos, if_pos htotalpos, ← Nat.add_assoc]
  exact (hshare.mul ((hvalue w hw).halved_div hlargest hpos hle)).div ht hone hlength

end RoleLottery.Binary64
