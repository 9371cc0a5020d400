import RoleLottery.Proofs.Quantities

/-!
# Sums of scalar amounts

The scalar amounts of a name are summed up in two ways: those of the one name in turn, with one
rounding at the end, or all names together, with a rounding and a look at the sign for each amount.
Where amounts stand for whole numbers of thousandths nothing is lost in either way, and the two give
the same number.
-/

namespace RoleLottery

/-! ## Amounts of a bundle -/

namespace Bundle

variable {α : Type}

def namedAmounts (b : Bundle α) : List (String × α) :=
  b.resources.filterMap fun r => r.value.amount?.map (r.name, ·)

theorem amountsOf_eq (b : Bundle α) (name : String) :
    b.amountsOf name = (b.namedAmounts.filter (·.1 == name)).map (·.2) := by
  unfold amountsOf namedAmounts
  induction b.resources with
  | nil => rfl
  | cons r rs ih =>
    cases hamount : r.value.amount? with
    | none => by_cases hname : r.name = name <;> simp [hname, hamount, ih]
    | some a => by_cases hname : r.name = name <;> simp [hname, hamount, ih]

theorem resources_filter (b : Bundle α) (p : Resource α → Bool) :
    (b.filter p).resources = b.resources.filter p := by
  rw [resources, resources, List.filter_map]
  rfl

theorem namedAmounts_scalars (b : Bundle α) : b.scalars.namedAmounts = b.namedAmounts := by
  unfold namedAmounts scalars
  rw [resources_filter, List.filterMap_filter]
  congr
  funext r
  cases hamount : r.value.amount? <;> simp [Value.isScalar, hamount]

theorem amountsOf_scalars (b : Bundle α) (name : String) :
    b.scalars.amountsOf name = b.amountsOf name := by
  rw [amountsOf_eq, namedAmounts_scalars, ← amountsOf_eq]

theorem amountsOf_parts (b : Bundle α) (name : String) :
    (b.shared.amountsOf name ++ b.unshared.amountsOf name).Perm (b.amountsOf name) := by
  unfold amountsOf shared unshared
  rw [resources_filter, resources_filter, ← List.filterMap_append, ← List.filter_append]
  exact ((List.filter_append_perm _ b.resources).filter _).filterMap _

variable [Amount α]

theorem scalarTotal_scalars (b : Bundle α) (name : String) :
    b.scalars.scalarTotal name = b.scalarTotal name := by
  rw [scalarTotal, amountsOf_scalars, scalarTotal]

/-- The sums of the scalar amounts of a name: in one go, through quantities, of the scalar entries
alone, and in two parts. -/
def sums (b : Bundle α) (name : String) : List α :=
  [b.scalarTotal name, (Quantities.ofBundle b).get name, b.scalars.scalarTotal name,
    (Quantities.ofBundle b.scalars).get name,
    Amount.add (b.shared.scalarTotal name) (b.unshared.scalarTotal name)]

end Bundle

namespace Quantities

variable {α : Type} [Amount α]

theorem ofBundle_eq_ofList (b : Bundle α) : ofBundle b = ofList b.namedAmounts := by
  unfold ofBundle ofList Bundle.namedAmounts
  rw [List.foldl_filterMap]
  congr
  funext q r
  cases r.value.amount? <;> rfl

theorem ofBundle_scalars (b : Bundle α) : ofBundle b.scalars = ofBundle b := by
  rw [ofBundle_eq_ofList, Bundle.namedAmounts_scalars, ofBundle_eq_ofList]

end Quantities

/-! ## Amounts that count thousandths -/

namespace Amount

/-- Amounts that stand for whole numbers of thousandths. Neither a sum nor a rounding loses
anything, as long as the numbers do not exceed the largest one. -/
structure Counting {α : Type} [Amount α] (Counts : α → ℕ → Prop) (most : ℕ) : Prop where
  zero : Counts Amount.zero 0
  add {a b : α} {m n : ℕ} : Counts a m → Counts b n → m + n ≤ most →
    Counts (Amount.add a b) (m + n)
  round {a : α} {n : ℕ} : Counts a n → n ≤ most → Counts (Amount.round a) n
  isPositive_iff {a : α} {n : ℕ} : Counts a n → (isPositive a = true ↔ 0 < n)

theorem counting_int (most : ℕ) : Counting (fun (a : Int) (n : ℕ) => a = n) most where
  zero := rfl
  add := by
    rintro _ _ m n rfl rfl -
    exact (Int.natCast_add m n).symm
  round := fun ha _ => ha
  isPositive_iff := by
    rintro _ n rfl
    rw [isPositive_int, decide_eq_true_iff]
    omega

namespace Counting

variable {α : Type} [Amount α] {Counts : α → ℕ → Prop} {most k n : ℕ} {a acc : α}
  {count : α → ℕ} {as : List α} {q : Quantities α} {b : Bundle α} {name : String}
  {es : List (String × α)}

theorem foldl_add (h : Counting Counts most) (hacc : Counts acc k)
    (has : ∀ a ∈ as, Counts a (count a)) (hmost : k + (as.map count).sum ≤ most) :
    Counts (as.foldl Amount.add acc) (k + (as.map count).sum) := by
  induction as generalizing acc k with
  | nil => exact hacc
  | cons a as ih =>
    obtain ⟨ha, has⟩ := List.forall_mem_cons.mp has
    rw [List.map_cons, List.sum_cons, ← Nat.add_assoc] at hmost ⊢
    exact ih (h.add hacc ha (by omega)) has hmost

theorem scalarTotal (h : Counting Counts most) (hb : ∀ a ∈ b.amountsOf name, Counts a (count a))
    (hmost : ((b.amountsOf name).map count).sum ≤ most) :
    Counts (b.scalarTotal name) ((b.amountsOf name).map count).sum := by
  have hsum := h.foldl_add h.zero hb (by omega)
  rw [Nat.zero_add] at hsum
  exact h.round hsum hmost

theorem get_deposit (h : Counting Counts most) (hq : Counts (q.get name) k) (ha : Counts a n)
    (hmost : k + n ≤ most) : Counts ((q.deposit name a).get name) (k + n) := by
  have hsum : Counts (plus (q.get name) a) (k + n) := h.round (h.add hq ha hmost) hmost
  rw [Quantities.deposit, Quantities.get_put_eq, if_pos rfl]
  split
  · exact hsum
  · rename_i hnotpos
    have hzero : k + n = 0 := by
      rw [h.isPositive_iff hsum] at hnotpos
      omega
    rw [hzero]
    exact h.zero

theorem get_foldl_deposit (h : Counting Counts most) (hq : Counts (q.get name) k)
    (hes : ∀ a ∈ (es.filter (·.1 == name)).map (·.2), Counts a (count a))
    (hmost : k + (((es.filter (·.1 == name)).map (·.2)).map count).sum ≤ most) :
    Counts ((es.foldl (fun acc e => acc.deposit e.1 e.2) q).get name)
      (k + (((es.filter (·.1 == name)).map (·.2)).map count).sum) := by
  induction es generalizing q k with
  | nil => exact hq
  | cons e es ih =>
    rw [List.foldl_cons]
    by_cases hname : e.1 = name
    · rw [List.filter_cons_of_pos (by simpa using hname), List.map_cons] at hes hmost ⊢
      obtain ⟨he, hes⟩ := List.forall_mem_cons.mp hes
      rw [List.map_cons, List.sum_cons, ← Nat.add_assoc] at hmost ⊢
      refine ih ?_ hes hmost
      rw [hname]
      exact h.get_deposit hq he (by omega)
    · rw [List.filter_cons_of_neg (by simpa using hname)] at hes hmost ⊢
      refine ih ?_ hes hmost
      rwa [Quantities.deposit, Quantities.get_put_eq, if_neg hname]

theorem get_ofBundle (h : Counting Counts most) (hb : ∀ a ∈ b.amountsOf name, Counts a (count a))
    (hmost : ((b.amountsOf name).map count).sum ≤ most) :
    Counts ((Quantities.ofBundle b).get name) ((b.amountsOf name).map count).sum := by
  rw [Bundle.amountsOf_eq] at hb hmost ⊢
  have hsum := h.get_foldl_deposit (q := {}) h.zero hb (by omega)
  rw [Nat.zero_add] at hsum
  rw [Quantities.ofBundle_eq_ofList]
  exact hsum

/-- All ways to sum up give the number of thousandths that the amounts have together. -/
theorem sums (h : Counting Counts most) (hb : ∀ a ∈ b.amountsOf name, Counts a (count a))
    (hmost : ((b.amountsOf name).map count).sum ≤ most) :
    ∀ s ∈ b.sums name, Counts s ((b.amountsOf name).map count).sum := by
  have hparts := b.amountsOf_parts name
  have hsum := (hparts.map count).sum_eq
  rw [List.map_append, List.sum_append] at hsum
  have hshared := h.scalarTotal (b := b.shared) (fun a ha =>
    hb a (hparts.subset (List.mem_append_left _ ha))) (by omega)
  have hunshared := h.scalarTotal (b := b.unshared) (fun a ha =>
    hb a (hparts.subset (List.mem_append_right _ ha))) (by omega)
  have hadd := h.add hshared hunshared (by omega)
  rw [hsum] at hadd
  have htotal := h.scalarTotal hb hmost
  have hget := h.get_ofBundle hb hmost
  unfold Bundle.sums
  rw [Bundle.scalarTotal_scalars, Quantities.ofBundle_scalars]
  simp only [List.forall_mem_cons]
  exact ⟨htotal, hget, htotal, hget, hadd, by simp⟩

end Counting

end Amount

theorem Bundle.sums_eq {b : Bundle Int} {name : String} (h : ∀ a ∈ b.amountsOf name, 0 ≤ a) :
    ∀ s ∈ b.sums name, s = (((b.amountsOf name).map Int.toNat).sum : ℕ) :=
  (Amount.counting_int _).sums (fun a ha => (Int.toNat_of_nonneg (h a ha)).symm) le_rfl

theorem Quantities.get_ofBundle_of_nonneg {b : Bundle Int} {name : String}
    (h : ∀ a ∈ b.amountsOf name, 0 ≤ a) : (ofBundle b).get name = b.scalarTotal name := by
  have hsums := Bundle.sums_eq h
  unfold Bundle.sums at hsums
  simp only [List.forall_mem_cons] at hsums
  obtain ⟨htotal, hget, -⟩ := hsums
  rw [hget, htotal]

end RoleLottery
