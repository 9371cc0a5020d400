import RoleLottery.Proofs.Interval

/-!
# Contents

A content is what a value stands for, whatever its form: an amount, a set of numbers or a set of
labels. Shared instances have a number of copies instead. In exact amounts merging values joins
their contents, removing takes the difference, and values in canonical form that have the same
content are the same.
-/

namespace RoleLottery

inductive Content
  | amount (a : Int)
  | numbers (ns : Set Nat)
  | labels (ls : Set String)
  | copies (n : Nat)

namespace Content

/-- Both together; a content of another sort is left aside. -/
def join : Content → Content → Content
  | .amount a, .amount b => .amount (a + b)
  | .numbers s, .numbers t => .numbers (s ∪ t)
  | .labels s, .labels t => .labels (s ∪ t)
  | .copies m, .copies n => .copies (m + n)
  | x, _ => x

/-- What the second leaves of the first. Amounts and copies do not fall below zero. -/
def without : Content → Content → Content
  | .amount a, .amount b => .amount (max (a - b) 0)
  | .numbers s, .numbers t => .numbers (s \ t)
  | .labels s, .labels t => .labels (s \ t)
  | .copies m, .copies n => .copies (m - n)
  | x, _ => x

/-- The first is part of the second; contents of different sorts never are. -/
def Within : Content → Content → Prop
  | .amount a, .amount b => a ≤ b
  | .numbers s, .numbers t => s ⊆ t
  | .labels s, .labels t => s ⊆ t
  | .copies m, .copies n => m ≤ n
  | _, _ => False

/-- Sets have no element in common; other contents need not differ. -/
def Apart : Content → Content → Prop
  | .numbers s, .numbers t => s ∩ t = ∅
  | .labels s, .labels t => s ∩ t = ∅
  | _, _ => True

def zero : Content → Content
  | .amount _ => .amount 0
  | .numbers _ => .numbers ∅
  | .labels _ => .labels ∅
  | .copies _ => .copies 0

def IsNothing : Content → Prop
  | .amount a => a ≤ 0
  | .numbers s => s = ∅
  | .labels s => s = ∅
  | .copies n => n = 0

variable {x y : Content}

inductive Alike : Content → Content → Prop
  | amount (a b : Int) : Alike (.amount a) (.amount b)
  | numbers (s t : Set Nat) : Alike (.numbers s) (.numbers t)
  | labels (s t : Set String) : Alike (.labels s) (.labels t)
  | copies (m n : Nat) : Alike (.copies m) (.copies n)

theorem Within.alike (h : x.Within y) : Alike x y := by
  cases x <;> cases y <;> first | constructor | exact h.elim

theorem alike_of_zero_eq (h : x.zero = y.zero) : Alike x y := by
  cases x <;> cases y <;> first | constructor | cases h

theorem within_refl (x : Content) : x.Within x := by
  cases x with
  | amount a => exact Int.le_refl a
  | numbers s => exact subset_rfl
  | labels s => exact subset_rfl
  | copies n => exact Nat.le_refl n

theorem Within.antisymm (h : x.Within y) (h' : y.Within x) : x = y := by
  cases h.alike with
  | amount a b => exact congrArg amount (Int.le_antisymm h h')
  | numbers s t => exact congrArg numbers (Set.Subset.antisymm h h')
  | labels s t => exact congrArg labels (Set.Subset.antisymm h h')
  | copies m n => exact congrArg copies (Nat.le_antisymm h h')

theorem isNothing_of_within (h : x.Within y) (hy : y.IsNothing) : x.IsNothing := by
  cases h.alike with
  | amount a b => exact Int.le_trans h hy
  | numbers s t => exact Set.subset_eq_empty h hy
  | labels s t => exact Set.subset_eq_empty h hy
  | copies m n => exact Nat.eq_zero_of_le_zero (Nat.le_trans h (Nat.le_of_eq hy))

theorem isNothing_zero (x : Content) : x.zero.IsNothing := by
  cases x with
  | amount a => exact Int.le_refl 0
  | _ => rfl

theorem zero_join (x : Content) : x.zero.join x = x := by
  cases x <;> simp [zero, join]

theorem join_zero (x : Content) : x.join x.zero = x := by
  cases x <;> simp [zero, join]

theorem without_zero (h : x.zero.Within x) : x.without x.zero = x := by
  cases x with
  | amount a =>
    have ha : 0 ≤ a := h
    simpa [zero, without] using ha
  | _ => simp [zero, without]

theorem zero_without (h : x.zero.Within x) : x.zero.without x = x.zero := by
  cases x with
  | amount a =>
    have ha : 0 ≤ a := h
    simpa [zero, without] using ha
  | _ => simp [zero, without]

theorem zero_of_without (x y : Content) : (x.without y).zero = x.zero := by
  cases x <;> cases y <;> rfl

theorem zero_within_without (h : x.zero.Within x) (y : Content) :
    x.zero.Within (x.without y) := by
  cases x with
  | amount a =>
    cases y with
    | amount b => exact Int.le_max_right (a - b) 0
    | _ => exact h
  | numbers s => cases y <;> exact Set.empty_subset _
  | labels s => cases y <;> exact Set.empty_subset _
  | copies m => cases y <;> exact Nat.zero_le _

theorem zero_within_of_not_isNothing (h : ¬x.IsNothing) : x.zero.Within x := by
  cases x with
  | amount a => exact Int.le_of_lt (Int.not_le.mp h)
  | numbers s => exact Set.empty_subset s
  | labels s => exact Set.empty_subset s
  | copies n => exact Nat.zero_le n

theorem eq_zero_of_isNothing (h : x.zero.Within x) (hx : x.IsNothing) : x = x.zero := by
  cases x with
  | amount a => exact congrArg amount (Int.le_antisymm hx h)
  | numbers s => exact congrArg numbers hx
  | labels s => exact congrArg labels hx
  | copies n => exact congrArg copies hx

theorem apart_zero (x y : Content) : x.Apart y.zero := by
  cases x <;> cases y <;> simp [Apart, zero]

theorem isNothing_without_self (x : Content) : (x.without x).IsNothing := by
  cases x <;> simp [without, IsNothing]

theorem within_join (h : x.zero.Within x) (hxy : Alike x y) : y.Within (x.join y) := by
  cases hxy with
  | amount a b =>
    have ha : 0 ≤ a := h
    change b ≤ a + b
    omega
  | numbers s t => exact Set.subset_union_right
  | labels s t => exact Set.subset_union_right
  | copies m n => exact Nat.le_add_left n m

/-- What was added can be taken away again, unless part of it was there before. -/
theorem join_without (h : x.zero.Within x) (hxy : Alike x y) (hapart : y.Apart x) :
    (x.join y).without y = x := by
  cases hxy with
  | amount a b =>
    have ha : 0 ≤ a := h
    simpa [join, without] using ha
  | numbers s t =>
    have hdisjoint : Disjoint t s := Set.disjoint_iff_inter_eq_empty.mpr hapart
    simpa [join, without, Set.union_sdiff_right] using hdisjoint.symm
  | labels s t =>
    have hdisjoint : Disjoint t s := Set.disjoint_iff_inter_eq_empty.mpr hapart
    simpa [join, without, Set.union_sdiff_right] using hdisjoint.symm
  | copies m n => exact congrArg copies (Nat.add_sub_cancel m n)

theorem Within.trans {z : Content} (h : x.Within y) (h' : y.Within z) : x.Within z := by
  cases h.alike with
  | amount a b =>
    cases h'.alike with
    | amount b c => exact Int.le_trans h h'
  | numbers s t =>
    cases h'.alike with
    | numbers t u => exact Set.Subset.trans h h'
  | labels s t =>
    cases h'.alike with
    | labels t u => exact Set.Subset.trans h h'
  | copies m n =>
    cases h'.alike with
    | copies n k => exact Nat.le_trans h h'

theorem join_comm (h : Alike x y) : x.join y = y.join x := by
  cases h with
  | amount a b => exact congrArg amount (Int.add_comm a b)
  | numbers s t => exact congrArg numbers (Set.union_comm s t)
  | labels s t => exact congrArg labels (Set.union_comm s t)
  | copies m n => exact congrArg copies (Nat.add_comm m n)

theorem join_assoc {z : Content} (h : Alike x y) (h' : Alike y z) :
    (x.join y).join z = x.join (y.join z) := by
  cases h with
  | amount a b =>
    cases h' with
    | amount b c => exact congrArg amount (Int.add_assoc a b c)
  | numbers s t =>
    cases h' with
    | numbers t u => exact congrArg numbers (Set.union_assoc s t u)
  | labels s t =>
    cases h' with
    | labels t u => exact congrArg labels (Set.union_assoc s t u)
  | copies m n =>
    cases h' with
    | copies n k => exact congrArg copies (Nat.add_assoc m n k)

/-- What can be taken away and joined again without a change was part of it. -/
theorem without_join_eq_iff (h : Alike x y) : (x.without y).join y = x ↔ y.Within x := by
  cases h with
  | amount a b =>
    simp only [without, join, amount.injEq, Within]
    omega
  | numbers s t => simp [without, join, Within]
  | labels s t => simp [without, join, Within]
  | copies m n =>
    simp only [without, join, copies.injEq, Within]
    omega

theorem not_isNothing_join (hx : ¬x.IsNothing) (hy : ¬y.IsNothing) : ¬(x.join y).IsNothing := by
  cases x with
  | amount a =>
    cases y with
    | amount b =>
      simp only [IsNothing, join] at *
      omega
    | _ => exact hx
  | numbers s =>
    cases y with
    | numbers t => exact fun h => hx (Set.union_empty_iff.mp h).1
    | _ => exact hx
  | labels s =>
    cases y with
    | labels t => exact fun h => hx (Set.union_empty_iff.mp h).1
    | _ => exact hx
  | copies m =>
    cases y with
    | copies n => exact fun h => hx (Nat.add_eq_zero_iff.mp h).1
    | _ => exact hx

end Content

/-! ## Labels -/

namespace Labels

variable {s t : Labels} {label : String}

def members (s : Labels) : Set String := {label | label ∈ s.items}

theorem ext_members (h : s.members = t.members) : s = t := by
  obtain ⟨items, hs⟩ := s
  obtain ⟨items', ht⟩ := t
  obtain rfl : items = items' := hs.eq_of_mem_iff ht fun label => Set.ext_iff.mp h label
  rfl

theorem members_union (s t : Labels) : (s.union t).members = s.members ∪ t.members :=
  Set.ext fun _ => mem_union

theorem ofList_items (s : Labels) : ofList s.items = s := by
  have hunion : ofList s.items = empty.union s := rfl
  apply ext_members
  rw [hunion, members_union]
  simp [members, empty]

theorem members_diff (s t : Labels) : (s.diff t).members = s.members \ t.members := by
  ext label
  simp [members, diff, contains]

theorem isSubset_iff : s.isSubset t = true ↔ s.members ⊆ t.members := by
  simp [isSubset, contains, members, Set.subset_def]

theorem isEmpty_iff : s.isEmpty = true ↔ s.members = ∅ := by
  simp [isEmpty, members, Set.ext_iff, List.eq_nil_iff_forall_not_mem]

end Labels

/-! ## Values -/

namespace Value

section

variable {α : Type} {v w : Value α}

/-- A value that one of the constructors made. -/
inductive Constructed [Amount α] : Value α → Prop
  | ofAmount (a : α) : Constructed (.ofAmount a)
  | ofRanges (is : List Interval) : Constructed (.ofRanges is)
  | ofLabels (labels : List String) : Constructed (.ofLabels labels)

def Canonical : Value α → Prop
  | .ranges is => Interval.Canonical is
  | _ => True

theorem Constructed.canonical [Amount α] (h : v.Constructed) : v.Canonical := by
  cases h with
  | ofAmount a => trivial
  | ofRanges is => exact Interval.canonical_canonicalize is
  | ofLabels labels => trivial

theorem Canonical.merge [Amount α] (hv : v.Canonical) (w : Value α) : (v.merge w).Canonical := by
  cases v with
  | scalar a => cases w <;> trivial
  | ranges is =>
    cases w with
    | ranges js => exact Interval.canonical_canonicalize (is ++ js)
    | _ => exact hv
  | set s => cases w <;> trivial

theorem Canonical.remove [Amount α] (hv : v.Canonical) (hw : w.Canonical) :
    (v.remove w).Canonical := by
  cases v with
  | scalar a => cases w <;> trivial
  | ranges is =>
    cases w with
    | ranges js => exact Interval.Canonical.foldl_cutOut hv hw.proper
    | _ => exact hv
  | set s => cases w <;> trivial

end

variable {v w : Value Int}

def content : Value Int → Content
  | .scalar a => .amount a
  | .ranges is => .numbers (Interval.numbers is)
  | .set s => .labels s.members

theorem content_merge (v w : Value Int) : (v.merge w).content = v.content.join w.content := by
  cases v with
  | scalar a => cases w <;> rfl
  | ranges is =>
    cases w with
    | ranges js =>
      simp only [Value.merge, content, Content.join, Interval.numbers_canonicalize,
        Interval.numbers_append]
    | _ => rfl
  | set s =>
    cases w with
    | set t => simp only [Value.merge, content, Content.join, Labels.members_union]
    | _ => rfl

theorem content_remove (v w : Value Int) :
    (v.remove w).content = v.content.without w.content := by
  cases v with
  | scalar a =>
    cases w with
    | scalar b => simp only [Value.remove, content, Content.without, Amount.minus_int]
    | _ => rfl
  | ranges is =>
    cases w with
    | ranges js =>
      simp only [Value.remove, content, Content.without, Interval.numbers_foldl_cutOut]
    | _ => rfl
  | set s =>
    cases w with
    | set t => simp only [Value.remove, content, Content.without, Labels.members_diff]
    | _ => rfl

theorem Canonical.contains_iff (hv : v.Canonical) (hw : w.Canonical) :
    v.contains w = true ↔ w.content.Within v.content := by
  cases v with
  | scalar a =>
    cases w with
    | scalar b => simp [contains, content, Content.Within]
    | _ => simp [contains, content, Content.Within]
  | ranges is =>
    cases w with
    | ranges js => exact Interval.Canonical.all_fitsIn_iff hv hw.proper
    | _ => simp [contains, content, Content.Within]
  | set s =>
    cases w with
    | set t => exact Labels.isSubset_iff
    | _ => simp [contains, content, Content.Within]

theorem Canonical.isEmpty_iff (hv : v.Canonical) : v.isEmpty = true ↔ v.content.IsNothing := by
  cases v with
  | scalar a => simp [isEmpty, content, Content.IsNothing]
  | ranges is => exact List.isEmpty_iff.trans (Interval.Canonical.eq_nil_iff hv)
  | set s => exact Labels.isEmpty_iff

theorem Canonical.isEmpty_eq_false_iff (hv : v.Canonical) :
    v.isEmpty = false ↔ ¬v.content.IsNothing := by
  rw [← hv.isEmpty_iff, Bool.not_eq_true]

theorem Canonical.merge_nonempty (hv : v.Canonical) (hw : w.Canonical) (h : v.isEmpty = false)
    (h' : w.isEmpty = false) : (v.merge w).isEmpty = false := by
  rw [(hv.merge w).isEmpty_eq_false_iff, content_merge]
  exact Content.not_isNothing_join (hv.isEmpty_eq_false_iff.mp h) (hw.isEmpty_eq_false_iff.mp h')

theorem Canonical.ext (hv : v.Canonical) (hw : w.Canonical) (h : v.content = w.content) :
    v = w := by
  cases v with
  | scalar a =>
    cases w with
    | scalar b => exact congrArg scalar (Content.amount.inj h)
    | _ => cases h
  | ranges is =>
    cases w with
    | ranges js => exact congrArg ranges (Interval.Canonical.ext hv hw (Content.numbers.inj h))
    | _ => cases h
  | set s =>
    cases w with
    | set t => exact congrArg set (Labels.ext_members (Content.labels.inj h))
    | _ => cases h

end Value

end RoleLottery
