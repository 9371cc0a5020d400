import RoleLottery.Proofs.Content

/-!
# Ranges as sets of numbers

Ranges in canonical form are the sets of 64-bit numbers: intervals make the same ranges exactly when
they cover the same numbers, and merging, removing and containing are union, difference and
inclusion. Words of 64 bits are enough for all of it. One pass over the sorted intervals with a
successor that stops at the largest number gives the canonical list, and no cut asks for the number
before zero or after the largest one.
-/

namespace RoleLottery

namespace Interval

variable {i j k cut : Interval} {is js : List Interval}

/-! ## Neighbours of a number -/

def predecessor? (n : UInt64) : Option UInt64 := if n = 0 then none else some (n - 1)

def successor? (n : UInt64) : Option UInt64 := if n + 1 = 0 then none else some (n + 1)

theorem predecessor?_of_lt {m n : UInt64} (h : m < n) : predecessor? n = some (n - 1) := by
  refine if_neg fun hzero => ?_
  rw [hzero, UInt64.lt_iff_toNat_lt] at h
  exact Nat.not_lt_zero _ h

theorem successor?_of_lt {m n : UInt64} (h : m < n) : successor? m = some (m + 1) := by
  refine if_neg fun hzero => ?_
  have hnext := toNat_add_one h
  rw [hzero] at hnext
  exact Nat.succ_ne_zero _ hnext.symm

/-- A successor that stops at the largest number tells as well as the exact one whether an interval
follows at once. -/
theorem le_successor_iff :
    j.first ≤ (successor? i.last).getD i.last ↔ ¬i.leavesGap j := by
  have hfirst := j.first.toNat_lt
  have hlast := i.last.toNat_lt
  have hnext : (i.last + 1).toNat = (i.last.toNat + 1) % 2 ^ 64 := UInt64.toNat_add i.last 1
  rw [leavesGap_iff, UInt64.le_iff_toNat_le, successor?]
  split
  · rename_i hlargest
    rw [hlargest, UInt64.toNat_zero] at hnext
    rw [Option.getD_none]
    omega
  · rename_i hlargest
    rw [← UInt64.toNat_inj, hnext, UInt64.toNat_zero] at hlargest
    rw [Option.getD_some, hnext]
    omega

/-! ## One pass over sorted intervals -/

/-- By the first number, then by the last. -/
def precedes (i j : Interval) : Bool :=
  i.first < j.first || i.first = j.first && i.last ≤ j.last

/-- Joins to `i` the intervals that overlap it or follow at once, and goes on with the first one that
does not. -/
def coalesceOnto (i : Interval) : List Interval → List Interval
  | [] => [i]
  | j :: js =>
    if j.first ≤ (successor? i.last).getD i.last then
      coalesceOnto ⟨i.first, max i.last j.last⟩ js
    else i :: coalesceOnto j js

/-- One pass over sorted intervals, all in 64-bit words. -/
def coalesce : List Interval → List Interval
  | [] => []
  | i :: is => coalesceOnto i is

def Ascending (is : List Interval) : Prop := is.Pairwise fun i j => i.first ≤ j.first

theorem ascending_mergeSort (is : List Interval) : Ascending (is.mergeSort precedes) := by
  have htrans (i j k : Interval) (hij : precedes i j = true) (hjk : precedes j k = true) :
      precedes i k = true := by
    simp only [precedes, Bool.or_eq_true, Bool.and_eq_true, decide_eq_true_eq,
      UInt64.lt_iff_toNat_lt, UInt64.le_iff_toNat_le, ← UInt64.toNat_inj] at *
    omega
  have htotal (i j : Interval) : (precedes i j || precedes j i) = true := by
    simp only [precedes, Bool.or_eq_true, Bool.and_eq_true, decide_eq_true_eq,
      UInt64.lt_iff_toNat_lt, UInt64.le_iff_toNat_le, ← UInt64.toNat_inj]
    omega
  refine (List.pairwise_mergeSort htrans htotal is).imp fun {i j} hij => ?_
  simp only [precedes, Bool.or_eq_true, Bool.and_eq_true, decide_eq_true_eq,
    UInt64.lt_iff_toNat_lt, ← UInt64.toNat_inj] at hij
  rw [UInt64.le_iff_toNat_le]
  omega

namespace Ascending

variable (h : Ascending (i :: j :: js))

include h

theorem first_le : i.first.toNat ≤ j.first.toNat :=
  UInt64.le_iff_toNat_le.mp ((List.pairwise_cons.mp h).1 j List.mem_cons_self)

theorem first_hull : (i.hull j).first = i.first := by
  rw [← UInt64.toNat_inj, Interval.first_hull]
  exact Nat.min_eq_left h.first_le

theorem hull : Ascending (i.hull j :: js) := by
  obtain ⟨hfirst, hrest⟩ := List.pairwise_cons.mp h
  refine List.pairwise_cons.mpr ⟨fun k hk => ?_, (List.pairwise_cons.mp hrest).2⟩
  rw [h.first_hull]
  exact hfirst k (List.mem_cons_of_mem j hk)

theorem not_leavesGap (hj : j.Proper) : ¬j.leavesGap i := by
  have hfirst := h.first_le
  rw [proper_iff] at hj
  rw [leavesGap_iff]
  omega

end Ascending

/-- The pass keeps the numbers, in intervals that do not touch and start where the first one did. -/
theorem coalesceOnto_spec (hi : i.Proper) (hjs : ∀ j ∈ js, j.Proper)
    (hasc : Ascending (i :: js)) :
    Canonical (coalesceOnto i js) ∧ numbers (coalesceOnto i js) = numbers (i :: js) ∧
      ∀ k ∈ coalesceOnto i js, i.first.toNat ≤ k.first.toNat := by
  induction js generalizing i with
  | nil => exact ⟨canonical_cons.mpr ⟨hi, by simp, canonical_nil⟩, rfl, by simp [coalesceOnto]⟩
  | cons j js ih =>
    obtain ⟨hj, hjs⟩ := List.forall_mem_cons.mp hjs
    have hhull : (⟨i.first, max i.last j.last⟩ : Interval) = i.hull j := by
      rw [← hasc.first_hull]
      rfl
    rw [coalesceOnto, hhull]
    split
    · rename_i htouch
      obtain ⟨hcanonical, hnumbers, hfrom⟩ := ih (hi.hull j) hjs hasc.hull
      rw [hasc.first_hull] at hfrom
      rw [numbers_hull_cons (le_successor_iff.mp htouch) (hasc.not_leavesGap hj)] at hnumbers
      exact ⟨hcanonical, hnumbers, hfrom⟩
    · rename_i htouch
      rw [le_successor_iff, not_not, leavesGap_iff] at htouch
      obtain ⟨hcanonical, hnumbers, hfrom⟩ := ih hj hjs (List.pairwise_cons.mp hasc).2
      have hgap : ∀ k ∈ coalesceOnto j js, i.leavesGap k := fun k hk =>
        leavesGap_iff.mpr (htouch.trans_le (hfrom k hk))
      refine ⟨canonical_cons.mpr ⟨hi, hgap, hcanonical⟩, ?_, List.forall_mem_cons.mpr ⟨le_rfl, ?_⟩⟩
      · ext n
        rw [mem_numbers_cons, hnumbers, ← mem_numbers_cons]
      · exact fun k hk => hasc.first_le.trans (hfrom k hk)

theorem coalesce_spec (his : ∀ i ∈ is, i.Proper) (hasc : Ascending is) :
    Canonical (coalesce is) ∧ numbers (coalesce is) = numbers is := by
  cases is with
  | nil => exact ⟨canonical_nil, rfl⟩
  | cons i is =>
    obtain ⟨hi, his⟩ := List.forall_mem_cons.mp his
    obtain ⟨hcanonical, hnumbers, -⟩ := coalesceOnto_spec hi his hasc
    exact ⟨hcanonical, hnumbers⟩

theorem numbers_perm (h : is.Perm js) : numbers is = numbers js := by
  ext n
  simp only [mem_numbers, h.mem_iff]

/-- Sorting and one pass give the canonical list. -/
theorem canonicalize_eq_coalesce (is : List Interval) :
    canonicalize is =
      coalesce ((is.filter fun i => i.first ≤ i.last).mergeSort precedes) := by
  have hperm := List.mergeSort_perm (is.filter fun i => i.first ≤ i.last) precedes
  have hproper : ∀ i ∈ (is.filter fun i => i.first ≤ i.last).mergeSort precedes, i.Proper :=
    fun i hi => proper_of_mem_filter (hperm.mem_iff.mp hi)
  obtain ⟨hcanonical, hnumbers⟩ := coalesce_spec hproper (ascending_mergeSort _)
  refine (canonical_canonicalize is).ext hcanonical ?_
  rw [hnumbers, numbers_perm hperm, numbers_filter, numbers_canonicalize]

example : canonicalize [⟨5, 9⟩, ⟨9, 5⟩, ⟨3, 4⟩, ⟨1, 2⟩, ⟨11, 11⟩] = [⟨1, 9⟩, ⟨11, 11⟩] := by decide

/-! ## Cuts in numbers that can be written -/

/-- The part of `i` before the cut; none when it would end before zero. -/
def before? (i cut : Interval) : Option (List Interval) :=
  if i.first < cut.first then (predecessor? cut.first).map fun last => [⟨i.first, last⟩]
  else some []

def after? (i cut : Interval) : Option (List Interval) :=
  if cut.last < i.last then (successor? cut.last).map fun first => [⟨first, i.last⟩]
  else some []

def minus? (i cut : Interval) : Option (List Interval) :=
  if cut.last < i.first || i.last < cut.first then some [i]
  else do return (← i.before? cut) ++ (← i.after? cut)

def cutOut? (is : List Interval) (cut : Interval) : Option (List Interval) :=
  (is.mapM (minus? · cut)).map List.flatten

theorem before?_eq (i cut : Interval) :
    i.before? cut = some (if i.first < cut.first then [⟨i.first, cut.first - 1⟩] else []) := by
  rw [before?]
  split
  · rename_i hlt
    rw [predecessor?_of_lt hlt, Option.map_some]
  · rfl

theorem after?_eq (i cut : Interval) :
    i.after? cut = some (if cut.last < i.last then [⟨cut.last + 1, i.last⟩] else []) := by
  rw [after?]
  split
  · rename_i hlt
    rw [successor?_of_lt hlt, Option.map_some]
  · rfl

/-- A part before the cut has a number before it, and a part after the cut has one after it. -/
theorem minus?_eq (i cut : Interval) : i.minus? cut = some (i.minus cut) := by
  rw [minus?, minus, before?_eq, after?_eq]
  split
  · rfl
  · rfl

theorem cutOut?_eq (is : List Interval) (cut : Interval) :
    cutOut? is cut = some (cutOut is cut) := by
  have hparts : is.mapM (minus? · cut) = some (is.map (minus · cut)) := by
    simp only [minus?_eq]
    exact List.mapM_pure
  rw [cutOut?, hparts, Option.map_some, cutOut, List.flatMap]

theorem foldlM_cutOut?_eq (is js : List Interval) :
    js.foldlM cutOut? is = some (js.foldl cutOut is) := by
  have hcut : cutOut? = fun is cut => some (cutOut is cut) := by
    funext is cut
    exact cutOut?_eq is cut
  rw [hcut]
  exact List.foldlM_pure

/-! ## Taking out and putting back -/

theorem Canonical.union_eq_iff (his : Canonical is) :
    canonicalize (js.foldl Interval.cutOut is ++ js) = is ↔ numbers js ⊆ numbers is := by
  have hback : numbers (canonicalize (js.foldl Interval.cutOut is ++ js)) =
      numbers is ∪ numbers js := by
    rw [numbers_canonicalize, numbers_append, numbers_foldl_cutOut, Set.sdiff_union_self]
  rw [← Set.union_eq_left, ← hback]
  exact ⟨congrArg numbers, (canonical_canonicalize _).ext his⟩

end Interval

theorem Labels.union_diff_eq_iff {s t : Labels} :
    (s.diff t).union t = s ↔ t.members ⊆ s.members := by
  have hback : ((s.diff t).union t).members = s.members ∪ t.members := by
    rw [members_union, members_diff, Set.sdiff_union_self]
  rw [← Set.union_eq_left, ← hback]
  exact ⟨congrArg members, ext_members⟩

/-! ## Values -/

namespace Value

open RoleLottery.Interval

variable {α : Type}

/-- Ranges are known by their numbers. Whatever intervals they are made of (inverted, nested,
touching, repeated), what comes out is the canonical list of the numbers that these cover. -/
theorem ranges_by_numbers (is : List Interval) :
    ∃ ks, (ofRanges is : Value α) = .ranges ks ∧
      ks = coalesce ((is.filter fun i => i.first ≤ i.last).mergeSort precedes) ∧
      (∀ k ∈ ks, k.first ≤ k.last) ∧
      (ks.Pairwise fun j k => j.last.toNat + 1 < k.first.toNat) ∧
      numbers ks = {n | ∃ i ∈ is, i.first ≤ i.last ∧ i.Has n} ∧
      ∀ js, (ofRanges is : Value α) = ofRanges js ↔ numbers is = numbers js := by
  have hcanonical := canonical_canonicalize is
  refine ⟨_, rfl, canonicalize_eq_coalesce is, hcanonical.proper,
    hcanonical.apart.imp leavesGap_iff.mp, ?_, fun js => ?_⟩
  · rw [numbers_canonicalize, ← numbers_filter]
    ext n
    simp [mem_numbers, and_assoc]
  · rw [ofRanges, ofRanges, ranges.injEq, ← numbers_canonicalize is, ← numbers_canonicalize js]
    exact ⟨congrArg numbers, hcanonical.ext (canonical_canonicalize js)⟩

variable [Amount α]

/-- On canonical ranges the operations are those on sets of numbers, and no number before zero or
after the largest one is asked for. Ranges and label sets contain what can be removed and merged
again without a change. -/
theorem ranges_as_sets {is js : List Interval} (his : Interval.Canonical is)
    (hjs : Interval.Canonical js) :
    (∃ ks, (ranges is : Value α).merge (.ranges js) = .ranges ks ∧ Interval.Canonical ks ∧
      numbers ks = numbers is ∪ numbers js) ∧
    (∃ ks, (ranges is : Value α).remove (.ranges js) = .ranges ks ∧ Interval.Canonical ks ∧
      numbers ks = numbers is \ numbers js ∧ js.foldlM cutOut? is = some ks) ∧
    ((ranges is : Value α).contains (.ranges js) = true ↔ numbers js ⊆ numbers is) ∧
    ((ranges is : Value α).contains (.ranges js) = true ↔
      ((ranges is : Value α).remove (.ranges js)).merge (.ranges js) = .ranges is) ∧
    ∀ s t : Labels, (set s : Value α).contains (.set t) = true ↔
      ((set s : Value α).remove (.set t)).merge (.set t) = .set s := by
  have hcontains := his.all_fitsIn_iff hjs.proper
  refine ⟨⟨_, rfl, canonical_canonicalize _, ?_⟩,
    ⟨_, rfl, his.foldl_cutOut hjs.proper, numbers_foldl_cutOut is js, foldlM_cutOut?_eq is js⟩,
    hcontains, ?_, fun s t => ?_⟩
  · rw [numbers_canonicalize, numbers_append]
  · rw [Value.remove, Value.merge, ranges.injEq, his.union_eq_iff]
    exact hcontains
  · rw [Value.remove, Value.merge, set.injEq, Labels.union_diff_eq_iff]
    exact Labels.isSubset_iff

def allNumbers : List Interval := [⟨0, 18446744073709551615⟩]

def outermost : List Interval :=
  [⟨0, 0⟩, ⟨18446744073709551615, 18446744073709551615⟩]

/-- The outermost numbers are cut off and put back. -/
theorem ranges_as_sets_outermost :
    Interval.Canonical allNumbers ∧ Interval.Canonical outermost ∧
    (ranges allNumbers : Value Float).remove (.ranges outermost) =
      .ranges [⟨1, 18446744073709551614⟩] ∧
    ((ranges allNumbers : Value Float).remove (.ranges outermost)).merge (.ranges outermost) =
      .ranges allNumbers := by
  have hall : Interval.Canonical allNumbers :=
    ⟨by simp [allNumbers, Proper], by simp [allNumbers]⟩
  have houtermost : Interval.Canonical outermost :=
    ⟨by simp [outermost, Proper], by simp [outermost, leavesGap_iff]⟩
  have hleft : outermost.foldl cutOut allNumbers = [⟨1, 18446744073709551614⟩] := by decide
  have hcontains : (ranges allNumbers : Value Float).contains (.ranges outermost) = true := by
    rw [Value.contains]
    decide
  obtain ⟨-, -, -, hback, -⟩ := ranges_as_sets (α := Float) hall houtermost
  exact ⟨hall, houtermost, congrArg ranges hleft, hback.mp hcontains⟩

end Value

end RoleLottery
