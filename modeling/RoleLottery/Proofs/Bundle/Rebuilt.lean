import Mathlib
import RoleLottery.Proofs.Bundle.Made
import RoleLottery.Proofs.Content

/-!
# Read and constructed bundles

The values of a bundle that is read are stored as they are written, and those of a bundle that is
constructed are rounded or in canonical form. The two bundles are the same as long as each written
value and the constructed one contain each other, amounts that are added up are rounded already, and
instances are equal to the constructed ones.
-/

namespace RoleLottery

/-! ## Values -/

namespace Interval

variable {is js : List Interval}

theorem numbers_subset_of_fitsIn (h : js.all (·.fitsIn is) = true) : numbers js ⊆ numbers is := by
  intro n hn
  obtain ⟨j, hj, hfirst, hlast⟩ := hn
  obtain ⟨i, hi, hifirst, hilast⟩ := fitsIn_eq_true_iff.mp (List.all_eq_true.mp h j hj)
  exact ⟨i, hi, hifirst.trans hfirst, hlast.trans hilast⟩

theorem all_fitsIn_self (is : List Interval) : is.all (·.fitsIn is) = true := by
  rw [List.all_eq_true]
  intro i hi
  exact fitsIn_eq_true_iff.mpr ⟨i, hi, le_rfl, le_rfl⟩

theorem canonicalize_congr (h : numbers is = numbers js) : canonicalize is = canonicalize js := by
  apply (canonical_canonicalize is).ext (canonical_canonicalize js)
  rw [numbers_canonicalize, numbers_canonicalize, h]

end Interval

namespace Value

variable {α : Type} [Amount α] {v v' w w' : Value α}

/-- What the constructor of its kind makes of a value. -/
def rebuilt : Value α → Value α
  | .scalar a => .ofAmount a
  | .ranges is => .ofRanges is
  | .set s => .ofLabels s.items

theorem kind_rebuilt (v : Value α) : v.rebuilt.kind = v.kind := by
  cases v <;> rfl

/-- Each value contains the other. -/
inductive Alike : Value α → Value α → Prop
  | scalar {a b : α} : Amount.thousandths a = Amount.thousandths b → Alike (.scalar a) (.scalar b)
  | ranges {is js : List Interval} : js.all (·.fitsIn is) = true → is.all (·.fitsIn js) = true →
    Alike (.ranges is) (.ranges js)
  | set (s : Labels) : Alike (.set s) (.set s)

theorem alike_iff : v.Alike w ↔ v.contains w = true ∧ w.contains v = true := by
  constructor
  · intro h
    cases h with
    | scalar h => simp [contains, h]
    | ranges hle hge => exact ⟨hle, hge⟩
    | set s => simp [contains, Labels.isSubset_iff]
  · intro h
    obtain ⟨hle, hge⟩ := h
    cases v with
    | scalar a =>
      cases w with
      | scalar b =>
        simp only [contains, decide_eq_true_eq] at hle hge
        exact .scalar (le_antisymm hge hle)
      | ranges js => cases hle
      | set t => cases hle
    | ranges is =>
      cases w with
      | scalar b => cases hle
      | ranges js => exact .ranges hle hge
      | set t => cases hle
    | set s =>
      cases w with
      | scalar b => cases hle
      | ranges js => cases hle
      | set t =>
        obtain rfl : s = t := Labels.ext_members
          ((Labels.isSubset_iff.mp hge).antisymm (Labels.isSubset_iff.mp hle))
        exact .set s

theorem Alike.symm (h : v.Alike w) : w.Alike v :=
  alike_iff.mpr (alike_iff.mp h).symm

theorem Alike.isEmpty_eq (h : v.Alike w) : v.isEmpty = w.isEmpty := by
  cases h with
  | scalar h => simp only [isEmpty, h]
  | @ranges is js hle hge => cases is <;> cases js <;> simp_all [isEmpty, Interval.fitsIn]
  | set s => rfl

/-- Values that are alike merge to such values, if amounts among them are equal. -/
theorem Alike.merge (h : v.Alike w) (h' : v'.Alike w') (hkind : v.kind = v'.kind)
    (hamount : v.amount? = w.amount?) (hamount' : v'.amount? = w'.amount?) :
    (v.merge v').Alike (w.merge w') ∧ (v.merge v').amount? = (w.merge w').amount? := by
  cases h with
  | scalar h =>
    cases h' with
    | scalar h' =>
      cases hamount
      cases hamount'
      exact ⟨.scalar rfl, rfl⟩
    | ranges _ _ => cases hkind
    | set t => cases hkind
  | @ranges is js hle hge =>
    cases h' with
    | scalar h' => cases hkind
    | @ranges is' js' hle' hge' =>
      have hnumbers : Interval.numbers (is ++ is') = Interval.numbers (js ++ js') := by
        rw [Interval.numbers_append, Interval.numbers_append]
        congr 1
        · exact (Interval.numbers_subset_of_fitsIn hge).antisymm
            (Interval.numbers_subset_of_fitsIn hle)
        · exact (Interval.numbers_subset_of_fitsIn hge').antisymm
            (Interval.numbers_subset_of_fitsIn hle')
      rw [Value.merge, Value.merge, Interval.canonicalize_congr hnumbers]
      exact ⟨.ranges (Interval.all_fitsIn_self _) (Interval.all_fitsIn_self _), rfl⟩
    | set t => cases hkind
  | set s =>
    cases h' with
    | scalar h' => cases hkind
    | ranges _ _ => cases hkind
    | set t => exact ⟨.set _, rfl⟩

end Value

/-! ## Resources -/

namespace Resource

variable {α : Type} [Amount α] {r s t : Resource α}

def rebuilt (r : Resource α) : Resource α := { r with value := r.value.rebuilt }

/-- The resource is as good as with the value that the constructor makes. -/
def isFaithful (r : Resource α) : Bool :=
  if r.shared then r == r.rebuilt
  else r.value.contains r.value.rebuilt && r.value.rebuilt.contains r.value

def IsRounded (r : Resource α) : Prop := r.value.amount? = r.value.rebuilt.amount?

/-- Instances are equal, and quantities have one key and contain each other. -/
inductive Agrees (r s : Resource α) : Prop
  | shared (hr : r.shared = true) (h : (r == s) = true)
  | unshared (hr : r.shared = false) (hkey : r.key = s.key) (h : r.value.Alike s.value)

theorem agrees_rebuilt (h : r.isFaithful = true) : r.Agrees r.rebuilt := by
  cases hr : r.shared with
  | true =>
    rw [isFaithful, if_pos hr] at h
    exact .shared hr h
  | false =>
    rw [isFaithful, if_neg (Bool.eq_false_iff.mp hr), Bool.and_eq_true] at h
    exact .unshared hr (key_setValue hr (Value.kind_rebuilt _)).symm (Value.alike_iff.mpr h)

theorem shared_of_beq (h : (r == s) = true) : r.shared = s.shared := by
  change r.eq s = true at h
  simp only [eq, Bool.and_eq_true, beq_iff_eq] at h
  exact h.1.2

theorem Agrees.shared_eq (h : r.Agrees s) : r.shared = s.shared := by
  cases h with
  | shared _ h => exact shared_of_beq h
  | unshared _ hkey _ => exact shared_eq_of_key_eq hkey

theorem Agrees.key_eq (h : r.Agrees s) (hr : r.shared = false) : r.key = s.key := by
  cases h with
  | shared hshared _ => simp [hshared] at hr
  | unshared _ hkey _ => exact hkey

theorem Agrees.alike (h : r.Agrees s) (hr : r.shared = false) : r.value.Alike s.value := by
  cases h with
  | shared hshared _ => simp [hshared] at hr
  | unshared _ _ h => exact h

theorem Agrees.accepts_self (h : r.Agrees s) : r.accepts s = true := by
  have hshared := h.shared_eq
  cases h with
  | shared hr h => rwa [accepts_of_shared (hshared.symm.trans hr)]
  | unshared hr hkey _ =>
    have hs := hshared.symm.trans hr
    rwa [accepts_of_unshared hs, isMergeable_iff hs]

variable [PartialEquivBEq (Resource α)]

theorem Agrees.symm (h : r.Agrees s) : s.Agrees r := by
  have hshared := h.shared_eq
  cases h with
  | shared hr h => exact .shared (hshared.symm.trans hr) (BEq.symm h)
  | unshared hr hkey h => exact .unshared (hshared.symm.trans hr) hkey.symm h.symm

theorem Agrees.accepts_left (h : r.Agrees s) (t : Resource α) : r.accepts t = s.accepts t := by
  cases h with
  | unshared _ hkey _ => exact accepts_congr_left hkey t
  | shared hr h =>
    cases ht : t.shared with
    | true => rw [accepts_of_shared ht, accepts_of_shared ht, BEq.congr_left h]
    | false =>
      have hs := (shared_of_beq h).symm.trans hr
      simp [accepts_of_unshared ht, isMergeable, hr, hs]

theorem Agrees.accepts_right (h : r.Agrees s) (t : Resource α) : t.accepts r = t.accepts s := by
  have hshared := h.shared_eq
  cases h with
  | unshared _ hkey _ => exact accepts_congr_right hkey t
  | shared hr h =>
    have hs := hshared.symm.trans hr
    rw [accepts_of_shared hr, accepts_of_shared hs, BEq.congr_right h]

end Resource

/-! ## Entries -/

namespace Entry

variable {α : Type} [Amount α] {e d f : Entry α} {rest : List (Entry α)} {copies : Nat}

structure Agrees (e d : Entry α) : Prop where
  resource : e.resource.Agrees d.resource
  count : e.count = d.count

theorem Agrees.symm [PartialEquivBEq (Resource α)] (h : e.Agrees d) : d.Agrees e :=
  ⟨h.resource.symm, h.count.symm⟩

theorem Agrees.copies_eq (h : e.Agrees d) : e.copies = d.copies := by
  rw [copies, copies, h.count]

/-- The entries agree, and what is still to be merged with them finds equal amounts and is
rounded. -/
structure Follows (rest : List (Entry α)) (e d : Entry α) : Prop extends Agrees e d where
  amount : ∀ f ∈ rest, e.resource.isMergeable f.resource = true →
    e.resource.value.amount? = d.resource.value.amount? ∧ f.resource.IsRounded

theorem Follows.tail (h : Follows (f :: rest) e d) : Follows rest e d :=
  ⟨h.toAgrees, fun g hg => h.amount g (List.mem_cons_of_mem f hg)⟩

theorem agrees_single {r s : Resource α} (h : r.Agrees s) (copies : Nat) :
    (single r copies).Agrees (single s copies) :=
  ⟨h, by rw [single, single, h.shared_eq]⟩

theorem Follows.joined (h : Follows (f :: rest) e d) (hf : f.resource.Agrees f.resource.rebuilt)
    (haccepts : e.resource.accepts f.resource = true) :
    Follows rest (e.joined f.resource copies) (d.joined f.resource.rebuilt copies) := by
  have hshared := hf.shared_eq
  cases hf with
  | shared hr hf =>
    rw [joined_of_shared hr, joined_of_shared (hshared.symm.trans hr)]
    refine ⟨⟨h.resource, ?_⟩, h.tail.amount⟩
    rw [h.copies_eq]
  | unshared hr hkey hf =>
    rw [Resource.accepts_of_unshared hr] at haccepts
    obtain ⟨hamount, hfamount⟩ := h.amount f List.mem_cons_self haccepts
    have heshared := (Resource.shared_of_isMergeable haccepts).1
    have hkind := (Resource.quantity_of_key_eq hr (Resource.key_eq_of_isMergeable haccepts)).2
    have hkeys := h.resource.key_eq heshared
    have hmerged := (h.resource.alike heshared).merge hf hkind hamount hfamount
    have hekey := Resource.key_setValue heshared
      (Value.kind_merge e.resource.value f.resource.value)
    have hdkey := Resource.key_setValue (h.resource.shared_eq.symm.trans heshared)
      (Value.kind_merge d.resource.value f.resource.rebuilt.value)
    rw [joined_of_unshared hr, joined_of_unshared (hshared.symm.trans hr)]
    refine ⟨⟨.unshared heshared (hekey.trans (hkeys.trans hdkey.symm)) hmerged.1, h.count⟩, ?_⟩
    intro g hg hmerge
    rw [Resource.isMergeable_congr hekey] at hmerge
    exact ⟨hmerged.2, (h.tail.amount g hg hmerge).2⟩

end Entry

/-! ## Bundles -/

namespace Bundle

variable {α : Type} [Amount α] {b c : Bundle α} {r s : Resource α} {copies : Nat} {f : Entry α}
  {es ds ls rest last last' : List (Entry α)}

variable [PartialEquivBEq (Resource α)]

theorem forall₂_putCopies (h : List.Forall₂ (Entry.Follows (f :: rest)) b.entries c.entries)
    (hf : f.resource.Agrees f.resource.rebuilt)
    (hrest : ∀ g ∈ rest, f.resource.isMergeable g.resource = true →
      f.resource.IsRounded ∧ g.resource.IsRounded) (copies : Nat) :
    List.Forall₂ (Entry.Follows rest) (b.putCopies f.resource copies).entries
      (c.putCopies f.resource.rebuilt copies).entries := by
  by_cases hnothing : copies = 0 ∨ f.resource.shared = false ∧ f.resource.isEmpty = true
  · have hnothing' : copies = 0 ∨
        f.resource.rebuilt.shared = false ∧ f.resource.rebuilt.isEmpty = true := by
      refine hnothing.imp_right fun hempty => ⟨hempty.1, ?_⟩
      rw [Resource.isEmpty, ← (hf.alike hempty.1).isEmpty_eq]
      exact hempty.2
    rw [putCopies_of_nothing b hnothing, putCopies_of_nothing c hnothing']
    exact h.imp fun _ _ => Entry.Follows.tail
  · obtain ⟨hcopies, hempty⟩ := not_or.mp hnothing
    have hcontent : f.resource.shared = false → f.resource.isEmpty = false := by simpa using hempty
    have hcontent' : f.resource.rebuilt.shared = false → f.resource.rebuilt.isEmpty = false := by
      intro hshared
      rw [Resource.isEmpty, ← (hf.alike hshared).isEmpty_eq]
      exact hcontent hshared
    rw [putCopies_eq b hcopies hcontent, putCopies_eq c hcopies hcontent']
    refine forall₂_alterFirst? h ?_ ?_ ?_ ?_
    · intro e d hed
      rw [hed.resource.accepts_left, hf.accepts_right]
    · exact fun e d hed haccepts => hed.joined hf haccepts
    · exact fun e d hed => hed.tail
    · refine .cons ⟨Entry.agrees_single hf copies, fun g hg hmerge => ?_⟩ .nil
      exact hrest g hg hmerge

omit [PartialEquivBEq (Resource α)] in
theorem putCopies_putCopies (hr : r.shared = true) (hself : (r == r) = true) (b : Bundle α)
    (m n : Nat) : (b.putCopies r m).putCopies r n = b.putCopies r (m + n) := by
  rcases Nat.eq_zero_or_pos m with rfl | hm
  · rw [putCopies_of_nothing b (.inl rfl), Nat.zero_add]
  rcases Nat.eq_zero_or_pos n with rfl | hn
  · rw [putCopies_of_nothing _ (.inl rfl), Nat.add_zero]
  have hcontent : r.shared = false → r.isEmpty = false := by simp [hr]
  have hself : r.accepts r = true := by rwa [Resource.accepts_of_shared hr]
  cases h : b.entries.find? (·.resource.accepts r) with
  | none =>
    have hother : ∀ e ∈ b.entries, e.resource.accepts r = false := by
      simpa using List.find?_eq_none.mp h
    rw [putCopies_of_other hm.ne' hcontent hother, putCopies_append hself hother hn.ne' hcontent,
      putCopies_of_other (Nat.add_pos_left hm n).ne' hcontent hother, Entry.joined_of_shared hr]
    simp [Entry.single, Entry.copies, hr, Amount.tally_tally_add]
  | some e =>
    obtain ⟨haccepts, before, after, hb, hbefore⟩ := List.find?_eq_some_iff_append.mp h
    obtain rfl : b = ⟨before ++ e :: after⟩ := congrArg Bundle.mk hb
    have hbefore : ∀ d ∈ before, d.resource.accepts r = false := by simpa using hbefore
    have hagain : (e.joined r m).resource.accepts r = true := by
      rwa [Entry.joined_of_shared hr]
    rw [putCopies_append haccepts hbefore hm.ne' hcontent,
      putCopies_append hagain hbefore hn.ne' hcontent,
      putCopies_append haccepts hbefore (Nat.add_pos_left hm n).ne' hcontent,
      Entry.joined_of_shared hr, Entry.joined_of_shared hr, Entry.joined_of_shared hr]
    simp [Entry.copies, Amount.tally_tally_add, Nat.add_assoc]

omit [PartialEquivBEq (Resource α)] in
theorem foldl_insert_replicate (hr : r.shared = true) (hself : (r == r) = true) (b : Bundle α)
    (n : Nat) : (List.replicate n r).foldl insert b = b.putCopies r n := by
  induction n generalizing b with
  | zero => rw [putCopies_of_nothing b (.inl rfl)]; rfl
  | succ n ih =>
    rw [List.replicate_succ, List.foldl_cons, ih, insert, putCopies_putCopies hr hself,
      Nat.add_comm]

/-- The resources that are put in one after the other for the entries of a list. -/
def constructed (es : List (Entry α)) : List (Resource α) :=
  es.flatMap fun e => List.replicate (if e.resource.shared then e.copies else 1) e.resource.rebuilt

theorem foldl_insert_rebuilt (hf : f.resource.Agrees f.resource.rebuilt) (c : Bundle α) :
    (List.replicate (if f.resource.shared then f.copies else 1) f.resource.rebuilt).foldl insert c =
      c.putCopies f.resource.rebuilt (if f.resource.shared then f.copies else 1) := by
  cases hf with
  | shared hr h =>
    have hself := BEq.trans (BEq.symm h) h
    have hrebuilt : f.resource.rebuilt.shared = true := hr
    exact foldl_insert_replicate hrebuilt hself c _
  | unshared hr _ _ =>
    rw [hr]
    rfl

theorem forall₂_foldl (hvalues : ∀ e ∈ es, e.resource.Agrees e.resource.rebuilt)
    (hmerged : es.Pairwise fun d e => d.resource.isMergeable e.resource = true →
      d.resource.IsRounded ∧ e.resource.IsRounded)
    (h : List.Forall₂ (Entry.Follows es) b.entries c.entries) :
    List.Forall₂ Entry.Agrees
      (es.foldl (fun acc e => acc.putCopies e.resource (if e.resource.shared then e.copies else 1))
        b).entries
      ((constructed es).foldl insert c).entries := by
  induction es generalizing b c with
  | nil => exact h.imp fun _ _ hed => hed.toAgrees
  | cons f rest ih =>
    obtain ⟨hf, hvalues⟩ := List.forall_mem_cons.mp hvalues
    obtain ⟨hrest, hmerged⟩ := List.pairwise_cons.mp hmerged
    rw [constructed, List.flatMap_cons, List.foldl_append, foldl_insert_rebuilt hf, List.foldl_cons]
    exact ih hvalues hmerged (forall₂_putCopies h hf hrest _)

/-! ## Bundles that agree -/

omit [PartialEquivBEq (Resource α)] in
theorem holds_of_agrees {e d : Entry α} (h : e.Agrees d)
    (hls : ∀ l ∈ ls, l.resource.accepts d.resource = false) :
    (⟨ls ++ e :: es⟩ : Bundle α).holds d.resource d.copies = true := by
  have hself := h.resource.accepts_self
  have hshared := h.resource.shared_eq
  cases hd : d.resource.shared with
  | true =>
    simp only [Resource.accepts_of_shared hd] at hself hls
    have hfind : (ls ++ e :: es).find? (fun e => e.resource == d.resource) = some e :=
      List.find?_eq_some_iff_append.mpr ⟨hself, ls, es, rfl, by simpa using hls⟩
    simp [holds, hd, copiesOf, hfind, h.copies_eq]
  | false =>
    rw [Resource.accepts_of_unshared hd] at hself
    have hcontains := (Value.alike_iff.mp (h.resource.alike (hshared.trans hd))).1
    simp [holds, hd, holdsQuantity, hself, hcontains]

theorem containsAll_of_agrees (h : List.Forall₂ Entry.Agrees es ds)
    (hls : ∀ l ∈ ls, ∀ d ∈ ds, l.resource.accepts d.resource = false)
    (hdistinct : ds.Pairwise fun d e => d.resource.accepts e.resource = false) :
    (⟨ls ++ es⟩ : Bundle α).containsAll ds = true := by
  induction h generalizing ls with
  | nil => rfl
  | @cons e d es ds hed h ih =>
    obtain ⟨hapart, hdistinct⟩ := List.pairwise_cons.mp hdistinct
    have hfirst : ∀ l ∈ ls, l.resource.accepts d.resource = false := fun l hl =>
      hls l hl d List.mem_cons_self
    have haccepts := hed.resource.accepts_self
    rw [containsAll, holds_of_agrees hed hfirst, takeCopies_append haccepts hfirst,
      Bool.true_and]
    refine ih (fun l hl g hg => ?_) hdistinct
    rcases List.mem_append.mp hl with hl | hl
    · exact hls l hl g (List.mem_cons_of_mem d hg)
    · rw [Option.mem_toList] at hl
      rw [Resource.accepts_congr_left (Entry.key_reduced? haccepts hl), hed.resource.accepts_left]
      exact hapart g hg

theorem same_of_agrees (h : List.Forall₂ Entry.Agrees b.entries c.entries) (hb : b.Distinct)
    (hc : c.Distinct) : (b == c) = true := by
  have hflip : List.Forall₂ Entry.Agrees c.entries b.entries :=
    (h.imp fun _ _ hed => hed.symm).flip
  have hbc : (⟨[] ++ b.entries⟩ : Bundle α).containsAll c.entries = true :=
    containsAll_of_agrees h (by simp) hc
  have hcb : (⟨[] ++ c.entries⟩ : Bundle α).containsAll b.entries = true :=
    containsAll_of_agrees hflip (by simp) hb
  exact Bool.and_eq_true_iff.mpr ⟨hbc, hcb⟩

end Bundle

/-! ## Doubles -/

instance : PartialEquivBEq (Value Float) where
  symm {v w} h := by
    change v.eq w = true at h
    change w.eq v = true
    cases v <;> cases w <;> simp_all [Value.eq, Amount.eq]
    exact BEq.symm h
  trans {u v w} h h' := by
    change u.eq v = true at h
    change v.eq w = true at h'
    change u.eq w = true
    cases u <;> cases v <;> simp [Value.eq] at h <;> cases w <;> simp_all [Value.eq, Amount.eq]
    exact BEq.trans h h'

instance : PartialEquivBEq (Resource Float) where
  symm {r s} h := by
    change r.eq s = true at h
    change s.eq r = true
    simp only [Resource.eq, Bool.and_eq_true, beq_iff_eq] at h ⊢
    obtain ⟨⟨⟨⟨hname, hvalue⟩, hrole⟩, hshared⟩, hid⟩ := h
    exact ⟨⟨⟨⟨hname.symm, BEq.symm hvalue⟩, hrole.symm⟩, hshared.symm⟩, hid.symm⟩
  trans {r s t} h h' := by
    change r.eq s = true at h
    change s.eq t = true at h'
    change r.eq t = true
    simp only [Resource.eq, Bool.and_eq_true, beq_iff_eq] at h h' ⊢
    obtain ⟨⟨⟨⟨hname, hvalue⟩, hrole⟩, hshared⟩, hid⟩ := h
    obtain ⟨⟨⟨⟨hname', hvalue'⟩, hrole'⟩, hshared'⟩, hid'⟩ := h'
    exact ⟨⟨⟨⟨hname.trans hname', BEq.trans hvalue hvalue'⟩, hrole.trans hrole'⟩,
      hshared.trans hshared'⟩, hid.trans hid'⟩

namespace Bundle

/-- A list of entries makes the bundle that the constructors make of it, if the values that the
constructors make agree with those of the entries and amounts that are merged are rounded. -/
theorem ofEntries_same_constructed {es : List (Entry Float)}
    (hvalues : ∀ e ∈ es, e.resource.isFaithful = true)
    (hmerged : es.Pairwise fun d e => d.resource.isMergeable e.resource = true →
      d.resource.IsRounded ∧ e.resource.IsRounded) :
    (ofEntries es == ofList (constructed es)) = true := by
  have hread : (ofEntries es).Made fun _ => True := made_ofEntries fun _ _ => trivial
  have hmade : (ofList (constructed es)).Made fun _ => True := made_ofList fun _ _ => trivial
  have hagrees : ∀ e ∈ es, e.resource.Agrees e.resource.rebuilt := fun e he =>
    Resource.agrees_rebuilt (hvalues e he)
  exact same_of_agrees (forall₂_foldl hagrees hmerged .nil) hread.tidy.distinct hmade.tidy.distinct

/-- Ranges that overlap, an amount with more than three places, memory in two parts, and a volume
twice. -/
def rawEntries : List (Entry Float) :=
  [⟨⟨"ports", .ranges [⟨2, 3⟩, ⟨1, 5⟩], none, false, none⟩, none⟩,
    ⟨⟨"cpus", .scalar 1.0004, none, false, none⟩, none⟩,
    ⟨⟨"mem", .scalar 0.5, none, false, none⟩, none⟩,
    ⟨⟨"disk", .scalar 10, none, true, some "vol-1"⟩, some 2⟩,
    ⟨⟨"mem", .scalar 1.5, none, false, none⟩, none⟩]

theorem ofEntries_same_constructed_raw :
    (∀ e ∈ rawEntries, e.resource.isFaithful = true) ∧
    (ofEntries rawEntries == ofList (constructed rawEntries)) = true := by
  have hvalues : ∀ e ∈ rawEntries, e.resource.isFaithful = true := by decide +kernel
  have hmerged : rawEntries.Pairwise fun d e => d.resource.isMergeable e.resource = true →
      d.resource.IsRounded ∧ e.resource.IsRounded := by
    unfold Resource.IsRounded
    decide +kernel
  exact ⟨hvalues, ofEntries_same_constructed hvalues hmerged⟩

def adjoiningPorts : Resource Float := ⟨"ports", .ranges [⟨1, 2⟩, ⟨3, 4⟩], none, false, none⟩

def adjoiningPortsText : String :=
  "[\x7b\"resource\":\x7b\"name\":\"ports\",\"value\":\x7b\"ranges\":[[1,2],[3,4]]\x7d\x7d\x7d]"

/-- What is read does not contain the one range that the constructor makes. -/
theorem read_apart_from_constructed : ∃ b : Bundle Float, ofJsonText? adjoiningPortsText = some b ∧
    b.entries = [⟨adjoiningPorts, none⟩] ∧ (b == ofList [adjoiningPorts.rebuilt]) = false := by
  have hread : (ofJsonText? adjoiningPortsText : Option (Bundle Float)).any (fun b =>
      decide (b.entries = [⟨adjoiningPorts, none⟩]) && !(b == ofList [adjoiningPorts.rebuilt])) =
      true := by
    decide +kernel
  obtain ⟨b, hb, hapart⟩ := (Option.any_eq_true _ _).mp hread
  obtain ⟨hentries, hsame⟩ := Bool.and_eq_true_iff.mp hapart
  exact ⟨b, hb, of_decide_eq_true hentries, by simpa using hsame⟩

end Bundle

end RoleLottery
