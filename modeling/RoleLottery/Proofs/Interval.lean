import Mathlib.Data.List.Pairwise
import Mathlib.Data.List.Sort
import Mathlib.Data.Set.Basic
import RoleLottery.Proofs.Value

/-!
# Canonical intervals

A list of intervals stands for a set of numbers, and each set has one canonical list. Absorbing an
interval unites the sets and cutting one out takes the difference, both in canonical form. In a
canonical list an interval lies inside a single other one exactly when all its numbers are covered.
-/

namespace RoleLottery.Interval

variable {i j k cut : Interval} {is js : List Interval} {n : Nat}

/-! ## Numbers -/

def Has (i : Interval) (n : Nat) : Prop := i.first.toNat ≤ n ∧ n ≤ i.last.toNat

/-- The numbers that the intervals cover together. -/
def numbers (is : List Interval) : Set Nat := {n | ∃ i ∈ is, i.Has n}

theorem mem_numbers : n ∈ numbers is ↔ ∃ i ∈ is, i.Has n := Iff.rfl

@[simp]
theorem numbers_nil : numbers [] = ∅ := by
  ext n
  simp [mem_numbers]

theorem mem_numbers_cons : n ∈ numbers (i :: is) ↔ i.Has n ∨ n ∈ numbers is := by
  simp [mem_numbers]

theorem numbers_append (is js : List Interval) : numbers (is ++ js) = numbers is ∪ numbers js := by
  ext n
  simp [mem_numbers, or_and_right, exists_or]

theorem proper_iff : i.Proper ↔ i.first.toNat ≤ i.last.toNat := UInt64.le_iff_toNat_le

theorem leavesGap_iff : i.leavesGap j = true ↔ i.last.toNat + 1 < j.first.toNat :=
  decide_eq_true_iff

theorem Has.proper (h : i.Has n) : i.Proper := proper_iff.mpr (h.1.trans h.2)

theorem first_hull (i j : Interval) :
    (i.hull j).first.toNat = min i.first.toNat j.first.toNat :=
  UInt64.toNat_min i.first j.first

theorem last_hull (i j : Interval) : (i.hull j).last.toNat = max i.last.toNat j.last.toNat :=
  UInt64.toNat_max i.last j.last

theorem has_hull_iff (hij : ¬i.leavesGap j) (hji : ¬j.leavesGap i) :
    (i.hull j).Has n ↔ i.Has n ∨ j.Has n := by
  rw [Has, Has, Has, first_hull, last_hull]
  rw [leavesGap_iff] at hij hji
  omega

theorem numbers_hull_cons (hij : ¬i.leavesGap j) (hji : ¬j.leavesGap i) :
    numbers (i.hull j :: js) = numbers (i :: j :: js) := by
  ext n
  rw [mem_numbers_cons, mem_numbers_cons, mem_numbers_cons, has_hull_iff hij hji, or_assoc]

/-! ## Canonical lists -/

/-- No interval is inverted, they ascend, and a number is left out between neighbours. -/
structure Canonical (is : List Interval) : Prop where
  proper : ∀ i ∈ is, i.Proper
  apart : is.Pairwise fun i j => i.leavesGap j

theorem canonical_nil : Canonical [] := ⟨by simp, .nil⟩

theorem canonical_cons :
    Canonical (i :: is) ↔ i.Proper ∧ (∀ j ∈ is, i.leavesGap j) ∧ Canonical is := by
  constructor
  · rintro ⟨hproper, hapart⟩
    obtain ⟨hi, his⟩ := List.forall_mem_cons.mp hproper
    obtain ⟨hgap, hrest⟩ := List.pairwise_cons.mp hapart
    exact ⟨hi, hgap, his, hrest⟩
  · rintro ⟨hi, hgap, his, hrest⟩
    exact ⟨List.forall_mem_cons.mpr ⟨hi, his⟩, List.pairwise_cons.mpr ⟨hgap, hrest⟩⟩

theorem leavesGap_trans (hj : j.Proper) (hij : i.leavesGap j) (hjk : j.leavesGap k) :
    i.leavesGap k := by
  rw [leavesGap_iff] at *
  rw [proper_iff] at hj
  omega

theorem leavesGap_absorb (hi : k.leavesGap i) (hjs : ∀ j ∈ js, k.leavesGap j) :
    ∀ j ∈ absorb i js, k.leavesGap j := by
  induction js generalizing i with
  | nil => simpa [absorb] using hi
  | cons j js ih =>
    obtain ⟨hj, hjs'⟩ := List.forall_mem_cons.mp hjs
    simp only [absorb]
    split
    · exact List.forall_mem_cons.mpr ⟨hi, hjs⟩
    · split
      · exact List.forall_mem_cons.mpr ⟨hj, ih hi hjs'⟩
      · refine ih ?_ hjs'
        rw [leavesGap_iff] at *
        rw [first_hull]
        omega

theorem Canonical.absorb (hi : i.Proper) (hjs : Canonical js) : Canonical (absorb i js) := by
  induction js generalizing i with
  | nil => exact canonical_cons.mpr ⟨hi, by simp, canonical_nil⟩
  | cons j js ih =>
    obtain ⟨hj, hgap, hrest⟩ := canonical_cons.mp hjs
    simp only [Interval.absorb]
    split
    · rename_i hij
      have hall : ∀ k ∈ j :: js, i.leavesGap k :=
        List.forall_mem_cons.mpr ⟨hij, fun k hk => leavesGap_trans hj hij (hgap k hk)⟩
      exact canonical_cons.mpr ⟨hi, hall, hjs⟩
    · split
      · rename_i hji
        exact canonical_cons.mpr ⟨hj, leavesGap_absorb hji hgap, ih hi hrest⟩
      · exact ih (hi.hull j) hrest

theorem numbers_absorb (hi : i.Proper) (hjs : ∀ j ∈ js, j.Proper) :
    numbers (absorb i js) = numbers (i :: js) := by
  induction js generalizing i with
  | nil => rfl
  | cons j js ih =>
    obtain ⟨hj, hjs'⟩ := List.forall_mem_cons.mp hjs
    simp only [absorb]
    split
    · rfl
    · rename_i hij
      split
      · ext n
        rw [mem_numbers_cons, ih hi hjs', mem_numbers_cons, mem_numbers_cons, mem_numbers_cons]
        exact or_left_comm
      · rename_i hji
        rw [ih (hi.hull j) hjs', numbers_hull_cons hij hji]

theorem canonical_canonicalize (is : List Interval) : Canonical (canonicalize is) := by
  refine List.foldlRecOn (motive := Canonical) _ _ canonical_nil ?_
  exact fun acc hacc i hi => hacc.absorb (proper_of_mem_filter hi)

theorem numbers_foldl_absorb {acc : List Interval} (hacc : ∀ i ∈ acc, i.Proper)
    (his : ∀ i ∈ is, i.Proper) :
    numbers (is.foldl (fun acc i => absorb i acc) acc) = numbers acc ∪ numbers is := by
  induction is generalizing acc with
  | nil => simp
  | cons i is ih =>
    obtain ⟨hi, his⟩ := List.forall_mem_cons.mp his
    rw [List.foldl_cons, ih (proper_absorb hi hacc) his, numbers_absorb hi hacc]
    ext n
    simp only [Set.mem_union, mem_numbers_cons]
    rw [or_left_comm, or_assoc]

theorem numbers_filter (is : List Interval) :
    numbers (is.filter fun i => i.first ≤ i.last) = numbers is := by
  ext n
  simp only [mem_numbers, List.mem_filter]
  constructor
  · rintro ⟨i, ⟨hi, -⟩, hn⟩
    exact ⟨i, hi, hn⟩
  · rintro ⟨i, hi, hn⟩
    exact ⟨i, ⟨hi, decide_eq_true hn.proper⟩, hn⟩

/-- Inverted intervals go, and nothing else. -/
theorem numbers_canonicalize (is : List Interval) : numbers (canonicalize is) = numbers is := by
  rw [canonicalize, numbers_foldl_absorb (by simp) fun i hi => proper_of_mem_filter hi,
    numbers_nil, Set.empty_union, numbers_filter]

/-! ## Cutting out -/

theorem toNat_sub_one {a b : UInt64} (h : a < b) : (b - 1).toNat = b.toNat - 1 := by
  have hlt := UInt64.lt_iff_toNat_lt.mp h
  have hone : (1 : UInt64).toNat = 1 := rfl
  rw [UInt64.toNat_sub_of_le, hone]
  rw [UInt64.le_iff_toNat_le, hone]
  omega

theorem toNat_add_one {a b : UInt64} (h : a < b) : (a + 1).toNat = a.toNat + 1 := by
  have hlt := UInt64.lt_iff_toNat_lt.mp h
  have hbound := b.toNat_lt
  have hone : (1 : UInt64).toNat = 1 := rfl
  rw [UInt64.toNat_add, hone, Nat.mod_eq_of_lt (by omega)]

theorem mem_minus : k ∈ i.minus cut ↔
    (cut.last < i.first ∨ i.last < cut.first) ∧ k = i ∨
    ¬(cut.last < i.first ∨ i.last < cut.first) ∧
      (i.first < cut.first ∧ k = ⟨i.first, cut.first - 1⟩ ∨
        cut.last < i.last ∧ k = ⟨cut.last + 1, i.last⟩) := by
  have hcond : (decide (cut.last < i.first) || decide (i.last < cut.first)) = true ↔
      cut.last < i.first ∨ i.last < cut.first := by simp
  unfold minus
  by_cases hapart : cut.last < i.first ∨ i.last < cut.first
  · rw [if_pos (hcond.mpr hapart)]
    simp [hapart]
  · rw [if_neg (mt hcond.mp hapart), List.mem_append]
    by_cases hbefore : i.first < cut.first <;> by_cases hafter : cut.last < i.last <;>
      simp [hapart, hbefore, hafter]

theorem bounds_of_mem_minus (h : k ∈ i.minus cut) :
    i.first.toNat ≤ k.first.toNat ∧ k.last.toNat ≤ i.last.toNat := by
  rcases mem_minus.mp h with ⟨-, rfl⟩ | ⟨hapart, ⟨hbefore, rfl⟩ | ⟨hafter, rfl⟩⟩
  · exact ⟨Nat.le_refl _, Nat.le_refl _⟩
  · rw [not_or, UInt64.not_lt, UInt64.not_lt, UInt64.le_iff_toNat_le, UInt64.le_iff_toNat_le]
      at hapart
    dsimp only
    rw [toNat_sub_one hbefore]
    omega
  · rw [not_or, UInt64.not_lt, UInt64.not_lt, UInt64.le_iff_toNat_le, UInt64.le_iff_toNat_le]
      at hapart
    dsimp only
    rw [toNat_add_one hafter]
    omega

theorem exists_has_minus : (∃ k ∈ i.minus cut, k.Has n) ↔ i.Has n ∧ ¬cut.Has n := by
  constructor
  · rintro ⟨k, hk, hn⟩
    obtain ⟨hfirst, hlast⟩ := bounds_of_mem_minus hk
    refine ⟨⟨hfirst.trans hn.1, hn.2.trans hlast⟩, fun hcutn => ?_⟩
    obtain ⟨hn1, hn2⟩ := hn
    obtain ⟨hc1, hc2⟩ := hcutn
    rcases mem_minus.mp hk with ⟨hapart, rfl⟩ | ⟨hapart, ⟨hbefore, rfl⟩ | ⟨hafter, rfl⟩⟩
    · rw [UInt64.lt_iff_toNat_lt, UInt64.lt_iff_toNat_lt] at hapart
      omega
    · dsimp only at hn2
      have := UInt64.lt_iff_toNat_lt.mp hbefore
      rw [toNat_sub_one hbefore] at hn2
      omega
    · dsimp only at hn1
      rw [toNat_add_one hafter] at hn1
      omega
  · rintro ⟨⟨hfirst, hlast⟩, hcutn⟩
    by_cases hapart : cut.last < i.first ∨ i.last < cut.first
    · exact ⟨i, mem_minus.mpr (.inl ⟨hapart, rfl⟩), hfirst, hlast⟩
    · rcases Nat.lt_or_ge n cut.first.toNat with hn | hn
      · have hbefore : i.first < cut.first := UInt64.lt_iff_toNat_lt.mpr (hfirst.trans_lt hn)
        refine ⟨_, mem_minus.mpr (.inr ⟨hapart, .inl ⟨hbefore, rfl⟩⟩), hfirst, ?_⟩
        dsimp only
        rw [toNat_sub_one hbefore]
        omega
      · have hlt : cut.last.toNat < n := by
          unfold Has at hcutn
          omega
        have hafter : cut.last < i.last := UInt64.lt_iff_toNat_lt.mpr (hlt.trans_le hlast)
        refine ⟨_, mem_minus.mpr (.inr ⟨hapart, .inr ⟨hafter, rfl⟩⟩), ?_, hlast⟩
        dsimp only
        rw [toNat_add_one hafter]
        omega

theorem canonical_minus (hi : i.Proper) (hcut : cut.Proper) : Canonical (i.minus cut) := by
  refine ⟨proper_minus hi cut, ?_⟩
  unfold minus
  split
  · exact List.pairwise_singleton _ _
  · -- The cut has a number, so the parts on its two sides do not touch.
    by_cases hbefore : i.first < cut.first <;> by_cases hafter : cut.last < i.last
    · rw [proper_iff] at hcut
      have hlt := UInt64.lt_iff_toNat_lt.mp hbefore
      simp only [hbefore, hafter, if_true, List.singleton_append, List.pairwise_pair]
      rw [leavesGap_iff]
      dsimp only
      rw [toNat_sub_one hbefore, toNat_add_one hafter]
      omega
    all_goals simp [hbefore, hafter]

theorem Canonical.cutOut (his : Canonical is) (hcut : cut.Proper) : Canonical (cutOut is cut) := by
  refine ⟨proper_cutOut his.proper cut, List.pairwise_flatMap.mpr ⟨fun i hi => ?_, ?_⟩⟩
  · exact (canonical_minus (his.proper i hi) hcut).apart
  · refine his.apart.imp fun hij k hk m hm => ?_
    have hlast := (bounds_of_mem_minus hk).2
    have hfirst := (bounds_of_mem_minus hm).1
    rw [leavesGap_iff] at *
    omega

theorem numbers_cutOut (is : List Interval) (cut : Interval) :
    numbers (Interval.cutOut is cut) = numbers is \ {n | cut.Has n} := by
  ext n
  simp only [mem_numbers, Interval.cutOut, List.mem_flatMap, Set.mem_sdiff, Set.mem_ofPred_eq]
  constructor
  · rintro ⟨k, ⟨i, hi, hk⟩, hn⟩
    obtain ⟨hin, hout⟩ := exists_has_minus.mp ⟨k, hk, hn⟩
    exact ⟨⟨i, hi, hin⟩, hout⟩
  · rintro ⟨⟨i, hi, hin⟩, hout⟩
    obtain ⟨k, hk, hn⟩ := exists_has_minus.mpr ⟨hin, hout⟩
    exact ⟨k, ⟨i, hi, hk⟩, hn⟩

theorem Canonical.foldl_cutOut (his : Canonical is) (hjs : ∀ j ∈ js, j.Proper) :
    Canonical (js.foldl Interval.cutOut is) :=
  List.foldlRecOn (motive := Canonical) js _ his fun _ hacc j hj => hacc.cutOut (hjs j hj)

theorem numbers_foldl_cutOut (is js : List Interval) :
    numbers (js.foldl Interval.cutOut is) = numbers is \ numbers js := by
  induction js generalizing is with
  | nil => simp
  | cons j js ih =>
    rw [List.foldl_cons, ih, numbers_cutOut]
    ext n
    simp only [Set.mem_sdiff, Set.mem_ofPred_eq, mem_numbers_cons, not_or, and_assoc]

/-! ## Covering -/

theorem Canonical.eq_nil_iff (his : Canonical is) : is = [] ↔ numbers is = ∅ := by
  constructor
  · rintro rfl
    exact numbers_nil
  · intro hnone
    refine List.eq_nil_iff_forall_not_mem.mpr fun i hi => ?_
    have hfirst : i.first.toNat ∈ numbers is :=
      ⟨i, hi, Nat.le_refl _, proper_iff.mp (his.proper i hi)⟩
    rw [hnone] at hfirst
    exact hfirst

theorem Canonical.leavesGap_or (his : Canonical is) (hi : i ∈ is) (hj : j ∈ is) :
    i = j ∨ i.leavesGap j ∨ j.leavesGap i := by
  let R (i j : Interval) : Prop := i.leavesGap j ∨ j.leavesGap i
  have hsymm : Std.Symm R := ⟨fun _ _ => Or.symm⟩
  have hapart : is.Pairwise R := his.apart.imp .inl
  by_cases hij : i = j
  · exact .inl hij
  · exact .inr (hapart.forall hi hj hij)

theorem fitsIn_eq_true_iff : j.fitsIn is = true ↔
    ∃ i ∈ is, i.first.toNat ≤ j.first.toNat ∧ j.last.toNat ≤ i.last.toNat := by
  simp [fitsIn, UInt64.le_iff_toNat_le]

/-- Numbers in a row that a canonical list covers are all in one interval. -/
theorem Canonical.fitsIn_iff (his : Canonical is) (hj : j.Proper) :
    j.fitsIn is = true ↔ ∀ n, j.Has n → n ∈ numbers is := by
  rw [proper_iff] at hj
  rw [fitsIn_eq_true_iff]
  constructor
  · rintro ⟨i, hi, hfirst, hlast⟩ n ⟨hn1, hn2⟩
    exact ⟨i, hi, hfirst.trans hn1, hn2.trans hlast⟩
  · intro hall
    obtain ⟨i, hi, hfirst, hlast⟩ := hall j.first.toNat ⟨Nat.le_refl _, hj⟩
    refine ⟨i, hi, hfirst, ?_⟩
    -- Otherwise another interval would have the next number, without a gap in between.
    by_contra hlt
    obtain ⟨k, hk, hkfirst, hklast⟩ := hall (i.last.toNat + 1) ⟨by omega, by omega⟩
    have hiproper := proper_iff.mp (his.proper i hi)
    rcases his.leavesGap_or hi hk with rfl | hgap | hgap
    · omega
    · rw [leavesGap_iff] at hgap
      omega
    · rw [leavesGap_iff] at hgap
      omega

theorem Canonical.all_fitsIn_iff (his : Canonical is) (hjs : ∀ j ∈ js, j.Proper) :
    js.all (·.fitsIn is) = true ↔ numbers js ⊆ numbers is := by
  rw [List.all_eq_true]
  constructor
  · rintro hall n ⟨j, hj, hn⟩
    exact (his.fitsIn_iff (hjs j hj)).mp (hall j hj) n hn
  · intro hsub j hj
    exact (his.fitsIn_iff (hjs j hj)).mpr fun n hn => hsub ⟨j, hj, hn⟩

/-- The intervals of a canonical list are as large as its numbers allow. -/
theorem Canonical.mem_of_numbers_eq (his : Canonical is) (hjs : Canonical js)
    (h : numbers is = numbers js) (hi : i ∈ is) : i ∈ js := by
  have hin : i.fitsIn js = true :=
    List.all_eq_true.mp ((hjs.all_fitsIn_iff his.proper).mpr h.subset) i hi
  obtain ⟨j, hj, hfirst, hlast⟩ := fitsIn_eq_true_iff.mp hin
  have hback : j.fitsIn is = true :=
    List.all_eq_true.mp ((his.all_fitsIn_iff hjs.proper).mpr h.symm.subset) j hj
  obtain ⟨k, hk, hkfirst, hklast⟩ := fitsIn_eq_true_iff.mp hback
  have hiproper := proper_iff.mp (his.proper i hi)
  have hik : i = k := by
    rcases his.leavesGap_or hi hk with rfl | hgap | hgap
    · rfl
    · rw [leavesGap_iff] at hgap
      omega
    · rw [leavesGap_iff] at hgap
      omega
  subst hik
  have hij : i = j := by
    cases i
    cases j
    simp only [Interval.mk.injEq, ← UInt64.toNat_inj]
    exact ⟨Nat.le_antisymm hkfirst hfirst, Nat.le_antisymm hlast hklast⟩
  exact hij ▸ hj

/-- A set of numbers has one canonical list. -/
theorem Canonical.ext (his : Canonical is) (hjs : Canonical js) (h : numbers is = numbers js) :
    is = js := by
  let R (i j : Interval) : Prop := i.first.toNat < j.first.toNat
  have hasymm : Std.Asymm R := ⟨fun _ _ => Nat.lt_asymm⟩
  have hascending {is : List Interval} (his : Canonical is) : is.Pairwise R := by
    refine his.apart.imp_of_mem fun {i j} hi _ hgap => ?_
    have hproper := proper_iff.mp (his.proper i hi)
    rw [leavesGap_iff] at hgap
    change i.first.toNat < j.first.toNat
    omega
  exact (hascending his).eq_of_mem_iff (hascending hjs) fun i =>
    ⟨his.mem_of_numbers_eq hjs h, hjs.mem_of_numbers_eq his h.symm⟩

theorem Canonical.canonicalize_eq (his : Canonical is) : canonicalize is = is :=
  (canonical_canonicalize is).ext his (numbers_canonicalize is)

end RoleLottery.Interval
