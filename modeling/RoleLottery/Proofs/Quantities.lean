import RoleLottery.Proofs.Table
import RoleLottery.Quantities

/-!
# Exact quantities

Quantities in exact amounts. As long as only positive amounts are stored, sums add up name by name
and differences stop at zero name by name, so quantities obey the laws of their amounts.
-/

namespace RoleLottery.Quantities

def Positive (q : Quantities Int) : Prop := ∀ name a, q.amounts.get? name = some a → 0 < a

variable {p q : Quantities Int} {name other : String} {a : Int}

theorem positive_empty : Positive {} := by
  intro name a ha
  simp [EmptyCollection.emptyCollection, Quantities.empty] at ha

@[simp]
theorem get_empty (name : String) : (∅ : Quantities Int).get name = 0 := rfl

theorem Positive.get_nonneg (h : q.Positive) (name : String) : 0 ≤ q.get name := by
  unfold get
  cases ha : q.amounts.get? name with
  | none => exact Int.le_refl 0
  | some a => exact Int.le_of_lt (h name a ha)

/-! ## One name -/

theorem get_put_eq {α : Type} [Amount α] (q : Quantities α) (name other : String) (a : α) :
    (q.put name a).get other = if name = other then
      if Amount.isPositive a then a else Amount.zero
    else q.get other := by
  unfold put get
  by_cases ha : Amount.isPositive a = true <;> by_cases hname : name = other <;> simp [ha, hname]

@[simp]
theorem get_put (q : Quantities Int) (name other : String) (a : Int) :
    (q.put name a).get other = if name = other then max a 0 else q.get other := by
  have hamount : (if Amount.isPositive a then a else Amount.zero) = max a 0 := by
    simp only [Amount.isPositive_int, decide_eq_true_eq, Amount.zero_int]
    omega
  rw [get_put_eq, hamount]

/-- An amount that is there after a change was there before or is positive. -/
theorem isPositive_or_of_put {α : Type} [Amount α] {q : Quantities α} {a b : α}
    (h : (q.put name a).amounts.get? other = some b) :
    Amount.isPositive b = true ∨ q.amounts.get? other = some b := by
  unfold put at h
  split at h
  · rename_i ha
    rw [Table.get?_insert] at h
    split at h
    · cases h
      exact .inl ha
    · exact .inr h
  · rw [Table.get?_erase] at h
    split at h
    · cases h
    · exact .inr h

theorem Positive.put (h : q.Positive) (name : String) (a : Int) : (q.put name a).Positive := by
  intro other b hb
  rcases isPositive_or_of_put hb with hb | hb
  · simpa using hb
  · exact h other b hb

theorem Positive.get_deposit (h : q.Positive) (ha : 0 ≤ a) (name other : String) :
    (q.deposit name a).get other = q.get other + if name = other then a else 0 := by
  have hq := h.get_nonneg name
  rw [deposit, get_put, Amount.plus_int]
  split
  · rename_i hname
    rw [← hname]
    omega
  · omega

theorem get_withdraw (q : Quantities Int) (name other : String) (a : Int) :
    (q.withdraw name a).get other =
      if name = other then max (q.get other - a) 0 else q.get other := by
  rw [withdraw, get_put, Amount.minus_int]
  split
  · rename_i hname
    rw [hname]
    omega
  · rfl

/-! ## Sums and differences -/

theorem Positive.foldl_deposit (h : q.Positive) (es : List (String × Int)) :
    (es.foldl (fun acc e => acc.deposit e.1 e.2) q).Positive := by
  induction es generalizing q with
  | nil => exact h
  | cons e es ih => exact ih (h.put _ _)

theorem Positive.get_foldl_deposit (h : q.Positive) {es : List (String × Int)}
    (hes : ∀ e ∈ es, 0 ≤ e.2) (name : String) :
    (es.foldl (fun acc e => acc.deposit e.1 e.2) q).get name =
      q.get name + (es.map fun e => if e.1 = name then e.2 else 0).sum := by
  induction es generalizing q with
  | nil => simp
  | cons e es ih =>
    obtain ⟨he, hes⟩ := List.forall_mem_cons.mp hes
    have hrest := ih (h.put e.1 (Amount.plus (q.get e.1) e.2)) hes
    rw [List.foldl_cons, List.map_cons, List.sum_cons]
    refine hrest.trans ?_
    rw [← deposit, h.get_deposit he]
    omega

theorem Positive.add (h : p.Positive) (q : Quantities Int) : (p + q).Positive :=
  h.foldl_deposit q.amounts.entries

theorem sum_entries (t : Table Int) (name : String) :
    (t.entries.map fun e => if e.1 = name then e.2 else 0).sum = (t.get? name).getD 0 := by
  have hfind (es : List (String × Int)) (hes : es.Pairwise fun e f => e.1 < f.1) :
      (es.map fun e => if e.1 = name then e.2 else 0).sum = (Table.find? name es).getD 0 := by
    induction es with
    | nil => rfl
    | cons e es ih =>
      obtain ⟨he, hes⟩ := List.pairwise_cons.mp hes
      rw [List.map_cons, List.sum_cons, ih hes, Table.find?]
      split
      · rename_i hname
        subst hname
        rw [Table.find?_eq_none_of_lt he, Option.getD_none, Option.getD_some, Int.add_zero]
      · rw [Int.zero_add]
  exact hfind t.entries t.sorted

theorem Positive.get_add (hp : p.Positive) (hq : q.Positive) (name : String) :
    (p + q).get name = p.get name + q.get name := by
  have hentries : ∀ e ∈ q.amounts.entries, 0 ≤ e.2 := fun e he =>
    Int.le_of_lt (hq e.1 e.2 ((q.amounts.get?_eq_some_iff e.1 e.2).mpr he))
  have hsum := hp.get_foldl_deposit hentries name
  rwa [sum_entries] at hsum

theorem Positive.sub (h : p.Positive) (q : Quantities Int) : (p - q).Positive := by
  have hfold (es : List (String × Int)) :
      (es.foldl (fun acc e => acc.withdraw e.1 e.2) p).Positive := by
    induction es generalizing p with
    | nil => exact h
    | cons e es ih => exact ih (h.put _ _)
  exact hfold q.amounts.entries

theorem Positive.get_sub (hp : p.Positive) (q : Quantities Int) (name : String) :
    (p - q).get name = max (p.get name - q.get name) 0 := by
  have hfold (es : List (String × Int)) (hes : es.Pairwise fun e f => e.1 < f.1) :
      (es.foldl (fun acc e => acc.withdraw e.1 e.2) p).get name =
        max (p.get name - (Table.find? name es).getD 0) 0 := by
    induction es generalizing p with
    | nil =>
      have hnonneg := hp.get_nonneg name
      simp only [List.foldl_nil, Table.find?, Option.getD_none]
      omega
    | cons e es ih =>
      obtain ⟨he, hes⟩ := List.pairwise_cons.mp hes
      have hrest := ih (hp.put e.1 (Amount.minus (p.get e.1) e.2)) hes
      rw [List.foldl_cons]
      refine hrest.trans ?_
      rw [← withdraw, get_withdraw, Table.find?]
      split
      · rename_i hname
        subst hname
        -- The keys ascend, so this name does not come again.
        rw [Table.find?_eq_none_of_lt he, Option.getD_none, Option.getD_some]
        omega
      · rfl
  exact hfold q.amounts.entries q.amounts.sorted

theorem Positive.ext (hp : p.Positive) (hq : q.Positive) (h : ∀ name, p.get name = q.get name) :
    p = q := by
  have hamounts : p.amounts = q.amounts := by
    apply Table.ext_get?
    intro name
    have hget := h name
    unfold get at hget
    cases hpa : p.amounts.get? name with
    | none =>
      cases hqa : q.amounts.get? name with
      | none => rfl
      | some b =>
        have hb := hq name b hqa
        rw [hpa, hqa, Option.getD_none, Option.getD_some, Amount.zero_int] at hget
        omega
    | some a =>
      cases hqa : q.amounts.get? name with
      | none =>
        have ha := hp name a hpa
        rw [hpa, hqa, Option.getD_none, Option.getD_some, Amount.zero_int] at hget
        omega
      | some b =>
        rw [hpa, hqa, Option.getD_some, Option.getD_some] at hget
        rw [hget]
  cases p
  cases q
  exact congrArg Quantities.mk hamounts

theorem Positive.add_sub (hp : p.Positive) (hq : q.Positive) : p + q - q = p := by
  refine ((hp.add q).sub q).ext hp fun name => ?_
  have hnonneg := hp.get_nonneg name
  rw [(hp.add q).get_sub, hp.get_add hq]
  omega

theorem Positive.contains_iff (hp : p.Positive) :
    p.contains q = true ↔ ∀ name, q.get name ≤ p.get name := by
  have hentry : p.contains q = true ↔ ∀ e ∈ q.amounts.entries, 0 ≤ p.get e.1 - e.2 := by
    simp [contains, Amount.le, Amount.round, Amount.sub]
  rw [hentry]
  constructor
  · intro h name
    have hnonneg := hp.get_nonneg name
    unfold get at hnonneg ⊢
    cases ha : q.amounts.get? name with
    | none => simpa using hnonneg
    | some a =>
      have hle := h (name, a) ((q.amounts.get?_eq_some_iff name a).mp ha)
      unfold get at hle
      simpa using hle
  · intro h e he
    have hget : q.get e.1 = e.2 := by
      rw [get, (q.amounts.get?_eq_some_iff e.1 e.2).mpr he, Option.getD_some]
    have hle := h e.1
    omega

/-! ## Laws -/

variable {r : Quantities Int}

theorem Positive.add_comm (hp : p.Positive) (hq : q.Positive) : p + q = q + p := by
  refine (hp.add q).ext (hq.add p) fun name => ?_
  rw [hp.get_add hq, hq.get_add hp, Int.add_comm]

theorem Positive.add_assoc (hp : p.Positive) (hq : q.Positive) (hr : r.Positive) :
    p + q + r = p + (q + r) := by
  refine ((hp.add q).add r).ext (hp.add (q + r)) fun name => ?_
  rw [(hp.add q).get_add hr, hp.get_add hq, hp.get_add (hq.add r), hq.get_add hr, Int.add_assoc]

/-- Only what is there comes back when it is taken away and added again. -/
theorem Positive.sub_add_eq_iff (hp : p.Positive) (hq : q.Positive) :
    p - q + q = p ↔ ∀ name, q.get name ≤ p.get name := by
  have hget (name : String) : (p - q + q).get name = max (p.get name) (q.get name) := by
    rw [(hp.sub q).get_add hq, hp.get_sub]
    omega
  constructor
  · intro hsame name
    rw [← hsame, hget]
    exact Int.le_max_right _ _
  · intro hle
    refine ((hp.sub q).add q).ext hp fun name => ?_
    rw [hget]
    exact max_eq_left (hle name)

/-- Sums and differences of positive amounts are taken name by name and leave no zero, so they obey
the laws of amounts. -/
theorem laws_of_amounts (hp : p.Positive) (hq : q.Positive) (hr : r.Positive) :
    ((p + q).Positive ∧ (p - q).Positive) ∧
    (∀ name, (p + q).get name = p.get name + q.get name ∧
      (p - q).get name = max (p.get name - q.get name) 0) ∧
    p + q = q + p ∧ p + q + r = p + (q + r) ∧ p + q - q = p ∧
    (p.contains q = true ↔ p - q + q = p) ∧
    (p.contains q = true ↔ ∀ name, q.get name ≤ p.get name) := by
  refine ⟨⟨hp.add q, hp.sub q⟩, fun name => ⟨hp.get_add hq name, hp.get_sub q name⟩,
    hp.add_comm hq, hp.add_assoc hq hr, hp.add_sub hq, ?_, hp.contains_iff⟩
  rw [hp.contains_iff, hp.sub_add_eq_iff hq]

def usage : Quantities Int := ofList [("cpus", 1500), ("mem", 64)]

def reserve : Quantities Int := ofList [("mem", 64), ("disk", 10), ("cpus", 500)]

theorem laws_of_amounts_usage : usage.Positive ∧ reserve.Positive ∧
    (usage - reserve).amounts.entries = [("cpus", 1000)] ∧
    usage + reserve - reserve = usage ∧ usage - reserve + reserve ≠ usage := by
  have husage : usage.Positive := positive_empty.foldl_deposit _
  have hreserve : reserve.Positive := positive_empty.foldl_deposit _
  obtain ⟨-, -, -, -, hback, hcontains, -⟩ := laws_of_amounts husage hreserve hreserve
  refine ⟨husage, hreserve, by decide, hback, fun hsame => ?_⟩
  have hheld : usage.contains reserve = false := by decide
  rw [hcontains.mpr hsame] at hheld
  cases hheld

end RoleLottery.Quantities
