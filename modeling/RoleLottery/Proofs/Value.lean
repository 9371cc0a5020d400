import RoleLottery.Resource

/-!
# Regular values

Values in exact amounts that are not negative and in ranges that are not inverted. Every constructor
gives such values, and merging and removing keep them so. A regular value that holds something holds
something after any merge.
-/

namespace RoleLottery

/-! ## Intervals -/

namespace Interval

variable {i j cut : Interval} {is js : List Interval}

def Proper (i : Interval) : Prop := i.first ≤ i.last

theorem Proper.hull (hi : i.Proper) (j : Interval) : (i.hull j).Proper := by
  have hmin : min i.first j.first ≤ i.first := Std.min_le_left
  have hmax : i.last ≤ max i.last j.last := by
    change i.last ≤ if i.last ≤ j.last then j.last else i.last
    split
    · assumption
    · exact UInt64.le_refl i.last
  exact UInt64.le_trans hmin (UInt64.le_trans hi hmax)

theorem proper_absorb (hi : i.Proper) (hjs : ∀ j ∈ js, j.Proper) : ∀ k ∈ absorb i js, k.Proper := by
  induction js generalizing i with
  | nil => simpa [absorb] using hi
  | cons j js ih =>
    obtain ⟨hj, hjs'⟩ := List.forall_mem_cons.mp hjs
    simp only [absorb]
    split
    · exact List.forall_mem_cons.mpr ⟨hi, hjs⟩
    · split
      · exact List.forall_mem_cons.mpr ⟨hj, ih hi hjs'⟩
      · exact ih (hi.hull j) hjs'

theorem absorb_ne_nil (i : Interval) (js : List Interval) : absorb i js ≠ [] := by
  induction js generalizing i with
  | nil => simp [absorb]
  | cons j js ih =>
    simp only [absorb]
    split
    · simp
    · split
      · simp
      · exact ih (i.hull j)

theorem proper_of_mem_filter (hi : i ∈ is.filter fun i => i.first ≤ i.last) : i.Proper := by
  simpa [Proper] using (List.mem_filter.mp hi).2

theorem proper_canonicalize (is : List Interval) : ∀ k ∈ canonicalize is, k.Proper := by
  refine List.foldlRecOn (motive := fun acc : List Interval => ∀ k ∈ acc, k.Proper) _ _
    (by simp) ?_
  exact fun acc hacc i hi => proper_absorb (proper_of_mem_filter hi) hacc

theorem canonicalize_ne_nil (hmem : i ∈ is) (hi : i.Proper) : canonicalize is ≠ [] := by
  have hfold (acc : List Interval) (ks : List Interval) (h : acc ≠ [] ∨ ks ≠ []) :
      ks.foldl (fun acc k => absorb k acc) acc ≠ [] := by
    induction ks generalizing acc with
    | nil => simpa using h
    | cons k ks ih => exact ih (absorb k acc) (.inl (absorb_ne_nil k acc))
  apply hfold
  exact .inr (List.ne_nil_of_mem (List.mem_filter.mpr ⟨hmem, by simpa [Proper] using hi⟩))

theorem proper_minus (hi : i.Proper) (cut : Interval) : ∀ k ∈ i.minus cut, k.Proper := by
  intro k hk
  unfold Proper at *
  unfold Interval.minus at hk
  grind

theorem proper_cutOut (his : ∀ i ∈ is, i.Proper) (cut : Interval) :
    ∀ k ∈ cutOut is cut, k.Proper := by
  intro k hk
  obtain ⟨i, hi, hk⟩ := List.mem_flatMap.mp hk
  exact proper_minus (his i hi) cut k hk

end Interval

/-! ## Label sets -/

theorem Labels.mem_union {s t : Labels} {label : String} :
    label ∈ (s.union t).items ↔ label ∈ s.items ∨ label ∈ t.items := by
  have hfold (labels : List String) :
      label ∈ (labels.foldl Labels.insert s).items ↔ label ∈ s.items ∨ label ∈ labels := by
    induction labels generalizing s with
    | nil => simp
    | cons first labels ih =>
      rw [List.foldl_cons, ih, Labels.mem_insert, List.mem_cons]
      constructor
      · rintro ((h | h) | h) <;> simp [h]
      · rintro (h | h | h) <;> simp [h]
  exact hfold t.items

/-! ## Values -/

namespace Value

deriving instance DecidableEq for Value

instance : LawfulBEq (Value Int) where
  rfl {v} := by
    change v.eq v = true
    cases v <;> simp [eq, Amount.eq]
  eq_of_beq {v w} h := by
    change v.eq w = true at h
    cases v <;> cases w <;> simp_all [eq, Amount.eq]

inductive Kind
  | amount
  | ranges
  | labels
  deriving DecidableEq

def kind {α : Type} : Value α → Kind
  | .scalar _ => .amount
  | .ranges _ => .ranges
  | .set _ => .labels

theorem hasKindOf_iff {α : Type} {v w : Value α} : v.hasKindOf w = true ↔ v.kind = w.kind := by
  cases v <;> cases w <;> simp [hasKindOf, kind]

theorem amount?_eq_some_iff {α : Type} {v : Value α} {a : α} :
    v.amount? = some a ↔ v = .scalar a := by
  cases v <;> simp [amount?]

/-- No amount is negative and no range is inverted. -/
def Regular : Value Int → Prop
  | .scalar a => 0 ≤ a
  | .ranges is => ∀ i ∈ is, i.Proper
  | .set _ => True

/-- A value that one of the constructors made, of an amount that is not negative. -/
inductive Normalized : Value Int → Prop
  | ofAmount {a : Int} : 0 ≤ a → Normalized (.ofAmount a)
  | ofRanges (is : List Interval) : Normalized (.ofRanges is)
  | ofLabels (labels : List String) : Normalized (.ofLabels labels)

theorem kind_merge {α : Type} [Amount α] (v w : Value α) : (v.merge w).kind = v.kind := by
  cases v <;> cases w <;> rfl

theorem kind_remove {α : Type} [Amount α] (v w : Value α) : (v.remove w).kind = v.kind := by
  cases v <;> cases w <;> rfl

theorem exists_of_merge_eq_scalar {α : Type} [Amount α] {v w : Value α} {sum : α}
    (hkind : v.kind = w.kind) (h : v.merge w = .scalar sum) :
    ∃ a b, v = .scalar a ∧ w = .scalar b ∧ sum = Amount.plus a b := by
  cases v with
  | scalar a =>
    cases w with
    | scalar b => exact ⟨a, b, rfl, rfl, (Value.scalar.inj h).symm⟩
    | ranges js => cases hkind
    | set t => cases hkind
  | ranges is => cases w <;> cases h
  | set s => cases w <;> cases h

variable {v w : Value Int}

theorem Normalized.regular (h : v.Normalized) : v.Regular := by
  cases h with
  | ofAmount ha => exact ha
  | ofRanges is => exact Interval.proper_canonicalize is
  | ofLabels labels => trivial

theorem Regular.merge (hv : v.Regular) (hw : w.Regular) : (v.merge w).Regular := by
  cases v with
  | scalar a =>
    cases w with
    | scalar b => exact Int.add_nonneg hv hw
    | ranges js => exact hv
    | set t => exact hv
  | ranges is =>
    cases w with
    | scalar b => exact hv
    | ranges js => exact Interval.proper_canonicalize _
    | set t => exact hv
  | set s => cases w <;> trivial

theorem Regular.remove (hv : v.Regular) (w : Value Int) : (v.remove w).Regular := by
  cases v with
  | scalar a =>
    cases w with
    | scalar b =>
      simp only [Value.remove, Regular, Amount.minus_int]
      omega
    | ranges js => exact hv
    | set t => exact hv
  | ranges is =>
    cases w with
    | scalar b => exact hv
    | ranges js =>
      refine List.foldlRecOn (motive := fun acc : List Interval => ∀ i ∈ acc, i.Proper) js _ hv ?_
      exact fun acc hacc cut _ => Interval.proper_cutOut hacc cut
    | set t => exact hv
  | set s => cases w <;> trivial

theorem Regular.merge_nonempty (hv : v.Regular) (hw : w.Regular) (h : v.isEmpty = false) :
    (v.merge w).isEmpty = false := by
  cases v with
  | scalar a =>
    cases w with
    | scalar b =>
      simp only [Regular] at hw
      simp only [isEmpty, Amount.thousandths_int, decide_eq_false_iff_not] at h
      simp only [Value.merge, isEmpty, Amount.plus_int, Amount.thousandths_int,
        decide_eq_false_iff_not]
      omega
    | ranges js => exact h
    | set t => exact h
  | ranges is =>
    cases w with
    | scalar b => exact h
    | ranges js =>
      simp only [isEmpty, List.isEmpty_eq_false_iff] at h
      obtain ⟨i, hi⟩ := List.exists_mem_of_ne_nil is h
      have hne := Interval.canonicalize_ne_nil (List.mem_append_left js hi) (hv i hi)
      simpa [Value.merge, isEmpty] using hne
    | set t => exact h
  | set s =>
    cases w with
    | scalar b => exact h
    | ranges js => exact h
    | set t =>
      simp only [isEmpty, Labels.isEmpty, List.isEmpty_eq_false_iff] at h
      obtain ⟨label, hlabel⟩ := List.exists_mem_of_ne_nil s.items h
      have hmem := Labels.mem_union.mpr (.inl hlabel : label ∈ s.items ∨ label ∈ t.items)
      simp only [Value.merge, isEmpty, Labels.isEmpty, List.isEmpty_eq_false_iff]
      exact List.ne_nil_of_mem hmem

/-! ## Amounts -/

def amountOrZero (v : Value Int) : Int := v.amount?.getD 0

theorem Regular.amountOrZero_nonneg (hv : v.Regular) : 0 ≤ v.amountOrZero := by
  cases v with
  | scalar a => exact hv
  | ranges is => exact Int.le_refl 0
  | set s => exact Int.le_refl 0

theorem Regular.amountOrZero_of_isEmpty (hv : v.Regular) (h : v.isEmpty = true) :
    v.amountOrZero = 0 := by
  cases v with
  | scalar a =>
    simp only [Regular] at hv
    simp only [isEmpty, Amount.thousandths_int, decide_eq_true_eq] at h
    exact Int.le_antisymm h hv
  | ranges is => rfl
  | set s => rfl

theorem amountOrZero_merge (hkind : v.kind = w.kind) :
    (v.merge w).amountOrZero = v.amountOrZero + w.amountOrZero := by
  cases v <;> cases w <;> simp_all [kind, Value.merge, amountOrZero, amount?]

theorem amountOrZero_remove (hkind : v.kind = w.kind) (h : v.contains w = true) :
    (v.remove w).amountOrZero + w.amountOrZero = v.amountOrZero := by
  cases v with
  | scalar a =>
    cases w with
    | scalar b =>
      simp only [contains, Amount.thousandths_int, decide_eq_true_eq] at h
      simp only [Value.remove, amountOrZero, amount?, Option.getD_some, Amount.minus_int]
      omega
    | ranges js => simp [kind] at hkind
    | set t => simp [kind] at hkind
  | ranges is => cases w <;> simp_all [kind, Value.remove, amountOrZero, amount?]
  | set s => cases w <;> simp_all [kind, Value.remove, amountOrZero, amount?]

end Value

end RoleLottery
