import Mathlib.Data.List.Nodup
import RoleLottery.Proofs.Bundle.Copies

/-!
# Bundles by key

In exact amounts an entry accepts just the resources with its key. Adding and taking copies change
the entry with the key of the resource and leave the others as they are. Bundles that are built from
normalized values have one entry for each key, and no entry without content.
-/

namespace RoleLottery

/-! ## Keys -/

instance : LawfulBEq (Resource Int) where
  rfl {r} := by
    change r.eq r = true
    simp [Resource.eq]
  eq_of_beq {r s} h := by
    change r.eq s = true at h
    cases r
    cases s
    simp_all [Resource.eq]

namespace Resource

variable {r s : Resource Int}

theorem beq_iff_key_eq (hr : r.shared = true) : (s == r) = true ↔ s.key = r.key := by
  rw [beq_iff_eq]
  cases hs : s.shared with
  | false =>
    refine iff_of_false ?_ (by simp [key, hr, hs])
    intro he
    rw [he, hr] at hs
    exact absurd hs (by simp)
  | true => simp [key, hr, hs]

theorem accepts_iff : s.accepts r = true ↔ s.key = r.key := by
  cases hr : r.shared with
  | false => rw [accepts_of_unshared hr, isMergeable_iff hr]
  | true => rw [accepts_of_shared hr, beq_iff_key_eq hr]

end Resource

/-! ## Entries -/

namespace Entry

/-- The copies, or the quantity, can be taken away. -/
def covers (e : Entry Int) (r : Resource Int) (copies : Nat) : Bool :=
  if r.shared then decide (copies ≤ e.copies) else e.resource.value.contains r.value

/-- An entry has content: an instance has copies, and a quantity is not empty. -/
structure Filled (e : Entry Int) : Prop extends Counted e where
  copies_pos : 0 < e.copies
  nonempty : e.resource.shared = false → e.resource.isEmpty = false

structure Normal (e : Entry Int) : Prop extends Filled e where
  regular : e.resource.value.Regular

variable {e e' : Entry Int} {r : Resource Int} {copies : Nat} {P : Value Int → Prop}

theorem filled_single (hcopies : copies ≠ 0) (hempty : r.shared = false → r.isEmpty = false) :
    (single r copies).Filled := by
  refine ⟨counted_single r copies, ?_, hempty⟩
  cases hr : r.shared <;> simp [single, hr, Entry.copies]
  omega

theorem value_joined (he : P e.resource.value) (hmerge : P (e.resource.value.merge r.value)) :
    P (e.joined r copies).resource.value := by
  unfold joined
  split
  · exact he
  · exact hmerge

theorem Filled.joined (he : e.Filled) (h : e.resource.key = r.key)
    (hmerge : r.shared = false → (e.resource.value.merge r.value).isEmpty = false) :
    (e.joined r copies).Filled := by
  refine ⟨he.toCounted.joined (Resource.accepts_iff.mpr h) copies, ?_, ?_⟩
  · cases hr : r.shared with
    | true =>
      rw [joined_of_shared hr, Amount.tally_int]
      exact Nat.add_pos_left he.copies_pos copies
    | false =>
      rw [joined_of_unshared hr]
      exact he.copies_pos
  · intro hshared
    have hr : r.shared = false := by
      rw [← Resource.shared_eq_of_key_eq h]
      rwa [Resource.shared_eq_of_key_eq (key_joined (Resource.accepts_iff.mpr h) copies)] at hshared
    rw [joined_of_unshared hr]
    exact hmerge hr

theorem value_reduced? (he' : e.reduced? r copies = some e') (he : P e.resource.value)
    (hremove : P (e.resource.value.remove r.value)) : P e'.resource.value := by
  rcases reduced?_eq_some he' with ⟨-, -, rfl⟩ | ⟨-, -, rfl⟩
  · exact he
  · exact hremove

theorem Filled.reduced? (he : e.Filled) (h : e.resource.key = r.key)
    (he' : e.reduced? r copies = some e') : e'.Filled := by
  have hcounted := he.toCounted.reduced? (Resource.accepts_iff.mpr h) he'
  rcases reduced?_eq_some he' with ⟨-, hless, rfl⟩ | ⟨-, hleft, rfl⟩
  · exact ⟨hcounted, Nat.sub_pos_of_lt hless, he.nonempty⟩
  · exact ⟨hcounted, he.copies_pos, fun _ => hleft⟩

theorem Normal.joined (he : e.Normal) (hregular : r.value.Regular) (h : e.resource.key = r.key) :
    (e.joined r copies).Normal := by
  refine ⟨he.toFilled.joined h fun hr => ?_, value_joined he.regular (he.regular.merge hregular)⟩
  exact he.regular.merge_nonempty hregular
    (he.nonempty ((Resource.shared_eq_of_key_eq h).trans hr))

theorem Normal.reduced? (he : e.Normal) (h : e.resource.key = r.key)
    (he' : e.reduced? r copies = some e') : e'.Normal :=
  ⟨he.toFilled.reduced? h he', value_reduced? he' he.regular (he.regular.remove _)⟩

end Entry

/-! ## Entries of a bundle -/

namespace Bundle

variable {b c : Bundle Int} {r s : Resource Int} {copies : Nat} {key other : EntryKey Int}

def entryAt? (b : Bundle Int) (key : EntryKey Int) : Option (Entry Int) :=
  b.entries.find? fun e => e.resource.key = key

theorem mem_of_entryAt?_eq_some {e : Entry Int} (h : b.entryAt? key = some e) :
    e ∈ b.entries ∧ e.resource.key = key :=
  ⟨List.mem_of_find?_eq_some h, by simpa using List.find?_some h⟩

/-- What a bundle has at a key after copies of a resource were added there. -/
def moreAt (e? : Option (Entry Int)) (r : Resource Int) (copies : Nat) : Option (Entry Int) :=
  e?.elim (some (.single r copies)) fun e => some (e.joined r copies)

def lessAt (e? : Option (Entry Int)) (r : Resource Int) (copies : Nat) : Option (Entry Int) :=
  e?.bind (·.reduced? r copies)

theorem accepts_eq_key (r : Resource Int) :
    (fun e : Entry Int => e.resource.accepts r) = fun e => decide (e.resource.key = r.key) := by
  funext e
  rw [Bool.eq_iff_iff, Resource.accepts_iff, decide_eq_true_iff]

/-- The entry with the key, if there is one, gives way to another one, or a new one comes last. -/
def Updates (b : Bundle Int) (key : EntryKey Int) (e? : Option (Entry Int)) (b' : Bundle Int) :
    Prop :=
  ∃ before after, b.entries = before ++ (b.entryAt? key).toList ++ after ∧
    b'.entries = before ++ e?.toList ++ after ∧ ∀ d ∈ before, d.resource.key ≠ key

theorem updates_alterFirst? (b : Bundle Int) (key : EntryKey Int)
    (f : Entry Int → Option (Entry Int)) (last : Option (Entry Int)) :
    Updates b key ((b.entryAt? key).elim last f)
      ⟨(alterFirst? (fun e => e.resource.key = key) f b.entries).getD
        (b.entries ++ last.toList)⟩ := by
  cases h : b.entryAt? key with
  | none =>
    refine ⟨b.entries, [], by simp [h], ?_, ?_⟩
    · rw [alterFirst?_eq_none h, Option.getD_none, List.append_nil]
      rfl
    · simpa [entryAt?] using h
  | some e =>
    obtain ⟨he, before, after, hentries, hbefore⟩ := List.find?_eq_some_iff_append.mp h
    have hother : ∀ d ∈ before, decide (d.resource.key = key) = false := by
      intro d hd
      simpa using hbefore d hd
    refine ⟨before, after, by simpa [h] using hentries, ?_, by simpa using hother⟩
    rw [hentries, alterFirst?_append he hother, Option.getD_some]
    rfl

theorem updates_putCopies (b : Bundle Int) (hcopies : copies ≠ 0)
    (hempty : r.shared = false → r.isEmpty = false) :
    Updates b r.key (moreAt (b.entryAt? r.key) r copies) (b.putCopies r copies) := by
  rw [putCopies_eq b hcopies hempty, accepts_eq_key]
  exact updates_alterFirst? b r.key (fun e => some (e.joined r copies)) (some (.single r copies))

theorem updates_takeCopies (b : Bundle Int) (r : Resource Int) (copies : Nat) :
    Updates b r.key (lessAt (b.entryAt? r.key) r copies) (b.takeCopies r copies) := by
  have hupdates := updates_alterFirst? b r.key (·.reduced? r copies) none
  have hless : (b.entryAt? r.key).elim none (·.reduced? r copies) =
      lessAt (b.entryAt? r.key) r copies := by
    cases b.entryAt? r.key <;> rfl
  rw [hless, Option.toList_none, List.append_nil] at hupdates
  rwa [takeCopies_eq, accepts_eq_key]

/-! ## Keyed bundles -/

def Keyed (b : Bundle Int) : Prop := (b.entries.map (·.resource.key)).Nodup

/-- Each key has one entry, and each entry has content. -/
structure Normal (b : Bundle Int) : Prop where
  keyed : b.Keyed
  entry : ∀ e ∈ b.entries, e.Normal

theorem Normal.filled (h : b.Normal) : ∀ e ∈ b.entries, e.Filled := fun e he =>
  (h.entry e he).toFilled

theorem normal_empty : Normal {} :=
  ⟨List.nodup_nil, by simp [EmptyCollection.emptyCollection, empty]⟩

theorem Keyed.entryAt?_eq_some_iff (h : b.Keyed) {e : Entry Int} :
    b.entryAt? key = some e ↔ e ∈ b.entries ∧ e.resource.key = key := by
  refine ⟨mem_of_entryAt?_eq_some, fun ⟨he, hkey⟩ => ?_⟩
  cases hfind : b.entryAt? key with
  | none =>
    have hnone := List.find?_eq_none.mp hfind e he
    simp [hkey] at hnone
  | some d =>
    obtain ⟨hd, hdkey⟩ := mem_of_entryAt?_eq_some hfind
    rw [List.inj_on_of_nodup_map h hd he (hdkey.trans hkey.symm)]

theorem Keyed.filter (h : b.Keyed) (p : Resource Int → Bool) : (b.filter p).Keyed :=
  h.sublist (List.filter_sublist.map _)

theorem Normal.filter (h : b.Normal) (p : Resource Int → Bool) : (b.filter p).Normal :=
  ⟨h.keyed.filter p, fun e he => h.entry e (List.mem_filter.mp he).1⟩

namespace Updates

variable {e? : Option (Entry Int)} {b' : Bundle Int}

theorem entryAt?_ne (u : Updates b key e? b') (hkey : ∀ e ∈ e?, e.resource.key = key)
    (hne : other ≠ key) : b'.entryAt? other = b.entryAt? other := by
  obtain ⟨before, after, hold, hnew, -⟩ := u
  have hskip (d? : Option (Entry Int)) (hd : ∀ d ∈ d?, d.resource.key = key) :
      d?.toList.find? (fun e => decide (e.resource.key = other)) = none := by
    cases d? with
    | none => rfl
    | some d => simp [hd d rfl, Ne.symm hne]
  have holdkey : ∀ d ∈ b.entryAt? key, d.resource.key = key :=
    fun d hd => (mem_of_entryAt?_eq_some hd).2
  have hfind (es : List (Entry Int)) (d? : Option (Entry Int))
      (hd : ∀ d ∈ d?, d.resource.key = key) (hes : es = before ++ d?.toList ++ after) :
      es.find? (fun e => decide (e.resource.key = other)) =
        (before ++ after).find? fun e => decide (e.resource.key = other) := by
    rw [hes, List.find?_append, List.find?_append, hskip d? hd, Option.or_none, List.find?_append]
  exact (hfind _ e? hkey hnew).trans (hfind _ _ holdkey hold).symm

theorem key_after (u : Updates b key e? b') (h : b.Keyed) :
    ∃ before after, b.entries = before ++ (b.entryAt? key).toList ++ after ∧
      b'.entries = before ++ e?.toList ++ after ∧
      ∀ d ∈ before ++ after, d.resource.key ≠ key := by
  obtain ⟨before, after, hold, hnew, hbefore⟩ := u
  refine ⟨before, after, hold, hnew, fun d hd => ?_⟩
  rcases List.mem_append.mp hd with hd | hd
  · exact hbefore d hd
  · intro hkey
    have hmem : d ∈ b.entries := by
      rw [hold]
      exact List.mem_append_right _ hd
    have hat := h.entryAt?_eq_some_iff.mpr ⟨hmem, hkey⟩
    rw [Keyed, hold, hat, Option.toList_some, List.map_append, List.map_append] at h
    have hdisjoint := (List.nodup_append.mp h).2.2
    exact hdisjoint key (by simp [hkey]) key (List.mem_map.mpr ⟨d, hd, hkey⟩) rfl

theorem entryAt?_self (u : Updates b key e? b') (h : b.Keyed)
    (hkey : ∀ e ∈ e?, e.resource.key = key) : b'.entryAt? key = e? := by
  obtain ⟨before, after, -, hnew, hother⟩ := u.key_after h
  have hskip (ds : List (Entry Int)) (hds : ∀ d ∈ ds, d ∈ before ++ after) :
      ds.find? (fun e => decide (e.resource.key = key)) = none := by
    apply List.find?_eq_none.mpr
    intro d hd
    simpa using hother d (hds d hd)
  rw [entryAt?, hnew, List.find?_append, List.find?_append,
    hskip before fun d hd => List.mem_append_left _ hd,
    hskip after fun d hd => List.mem_append_right _ hd]
  cases e? with
  | none => rfl
  | some e => simp [hkey e rfl]

theorem keyed (u : Updates b key e? b') (h : b.Keyed) (hkey : ∀ e ∈ e?, e.resource.key = key) :
    b'.Keyed := by
  obtain ⟨before, after, hold, hnew, hother⟩ := u.key_after h
  have hrest : ((before ++ after).map (·.resource.key)).Nodup := by
    refine h.sublist (List.Sublist.map _ ?_)
    rw [hold]
    exact (List.sublist_append_left before _).append (List.Sublist.refl after)
  rw [Keyed, hnew]
  cases e? with
  | none => simpa using hrest
  | some e =>
    have hperm : (before ++ [e] ++ after).Perm (e :: (before ++ after)) := by
      rw [List.append_assoc]
      exact List.perm_middle
    apply (hperm.map _).nodup_iff.mpr
    refine List.nodup_cons.mpr ⟨?_, hrest⟩
    change e.resource.key ∉ _
    rw [hkey e rfl]
    intro hmem
    obtain ⟨d, hd, hdkey⟩ := List.mem_map.mp hmem
    exact hother d hd hdkey

theorem forall_entries {P : Entry Int → Prop} (u : Updates b key e? b')
    (h : ∀ e ∈ b.entries, P e) (he : ∀ e ∈ e?, P e) : ∀ e ∈ b'.entries, P e := by
  obtain ⟨before, after, hold, hnew, -⟩ := u
  intro d hd
  rw [hnew, List.mem_append, List.mem_append] at hd
  have hmem (hd : d ∈ before ∨ d ∈ after) : d ∈ b.entries := by
    rw [hold]
    rcases hd with hd | hd <;> simp [hd]
  rcases hd with (hd | hd) | hd
  · exact h d (hmem (.inl hd))
  · exact he d (by simpa using hd)
  · exact h d (hmem (.inr hd))

end Updates

/-! ## Adding and taking -/

theorem key_moreAt : ∀ e ∈ moreAt (b.entryAt? r.key) r copies, e.resource.key = r.key := by
  intro e he
  cases h : b.entryAt? r.key with
  | none =>
    rw [h] at he
    rw [← Option.some.inj he]
    rfl
  | some d =>
    rw [h] at he
    rw [← Option.some.inj he]
    obtain ⟨-, hkey⟩ := mem_of_entryAt?_eq_some h
    exact (Entry.key_joined (Resource.accepts_iff.mpr hkey) copies).trans hkey

theorem key_lessAt : ∀ e ∈ lessAt (b.entryAt? r.key) r copies, e.resource.key = r.key := by
  intro e he
  obtain ⟨d, hd, hless⟩ := Option.bind_eq_some_iff.mp he
  have hkey := (mem_of_entryAt?_eq_some hd).2
  exact (Entry.key_reduced? (Resource.accepts_iff.mpr hkey) hless).trans hkey

theorem putCopies_cases (b : Bundle Int) (r : Resource Int) (copies : Nat) :
    b.putCopies r copies = b ∨
    copies ≠ 0 ∧ (r.shared = false → r.isEmpty = false) ∧
      Updates b r.key (moreAt (b.entryAt? r.key) r copies) (b.putCopies r copies) := by
  by_cases hcopies : copies = 0
  · exact .inl (by rw [putCopies, if_pos hcopies])
  by_cases hempty : r.shared = false ∧ r.isEmpty = true
  · exact .inl (by simp [putCopies, hcopies, hempty.1, hempty.2])
  have hnonempty : r.shared = false → r.isEmpty = false := by
    simpa using hempty
  exact .inr ⟨hcopies, hnonempty, updates_putCopies b hcopies hnonempty⟩

theorem Keyed.putCopies (h : b.Keyed) (r : Resource Int) (copies : Nat) :
    (b.putCopies r copies).Keyed := by
  rcases putCopies_cases b r copies with hsame | ⟨-, -, hupdates⟩
  · rw [hsame]
    exact h
  · exact hupdates.keyed h key_moreAt

theorem Keyed.takeCopies (h : b.Keyed) (r : Resource Int) (copies : Nat) :
    (b.takeCopies r copies).Keyed :=
  (updates_takeCopies b r copies).keyed h key_lessAt

theorem forall_moreAt {P : Entry Int → Prop} (h : ∀ e ∈ b.entries, P e)
    (hnew : P (.single r copies))
    (hjoined : ∀ e, P e → e.resource.key = r.key → P (e.joined r copies)) :
    ∀ e ∈ moreAt (b.entryAt? r.key) r copies, P e := by
  intro e he
  cases hold : b.entryAt? r.key with
  | none =>
    rw [hold] at he
    rw [← Option.some.inj he]
    exact hnew
  | some d =>
    obtain ⟨hd, hkey⟩ := mem_of_entryAt?_eq_some hold
    rw [hold] at he
    rw [← Option.some.inj he]
    exact hjoined d (h d hd) hkey

theorem forall_lessAt {P : Entry Int → Prop} (h : ∀ e ∈ b.entries, P e)
    (hreduced : ∀ e e', P e → e.resource.key = r.key → e.reduced? r copies = some e' → P e') :
    ∀ e ∈ lessAt (b.entryAt? r.key) r copies, P e := by
  intro e he
  obtain ⟨d, hd, he⟩ := Option.bind_eq_some_iff.mp he
  obtain ⟨hmem, hkey⟩ := mem_of_entryAt?_eq_some hd
  exact hreduced d e (h d hmem) hkey he

theorem Normal.putCopies (h : b.Normal) (hr : r.value.Regular) (copies : Nat) :
    (b.putCopies r copies).Normal := by
  refine ⟨h.keyed.putCopies r copies, ?_⟩
  rcases putCopies_cases b r copies with hsame | ⟨hcopies, hempty, hupdates⟩
  · rw [hsame]
    exact h.entry
  · refine hupdates.forall_entries h.entry (forall_moreAt h.entry ?_ ?_)
    · exact ⟨Entry.filled_single hcopies hempty, hr⟩
    · exact fun e he hkey => he.joined hr hkey

theorem Normal.takeCopies (h : b.Normal) (r : Resource Int) (copies : Nat) :
    (b.takeCopies r copies).Normal :=
  ⟨h.keyed.takeCopies r copies,
    (updates_takeCopies b r copies).forall_entries h.entry
      (forall_lessAt h.entry fun _ _ he hkey hreduced => he.reduced? hkey hreduced)⟩

theorem copiesOf_eq (b : Bundle Int) (hr : r.shared = true) :
    b.copiesOf r = (b.entryAt? r.key).elim 0 Entry.copies := by
  have hkey := accepts_eq_key r
  simp only [Resource.accepts_of_shared hr] at hkey
  unfold copiesOf entryAt?
  rw [hkey]
  cases b.entries.find? fun e => decide (e.resource.key = r.key) <;> rfl

/-- Only the entry with the key of a resource can hold it. -/
theorem Keyed.holds_eq (h : b.Keyed) (hcopies : copies ≠ 0)
    (hempty : r.shared = false → r.isEmpty = false) :
    b.holds r copies = (b.entryAt? r.key).any (·.covers r copies) := by
  rw [Bool.eq_iff_iff]
  cases hr : r.shared with
  | true =>
    have hholds : b.holds r copies = true ↔ copies ≤ b.copiesOf r := by
      simp [holds, hr]
    rw [hholds, copiesOf_eq b hr]
    cases b.entryAt? r.key with
    | none => simp [hcopies]
    | some e => simp [Entry.covers, hr]
  | false =>
    have hholds : b.holds r copies = true ↔
        ∃ e ∈ b.entries, e.resource.key = r.key ∧ e.resource.value.contains r.value = true := by
      simp [holds, holdsQuantity, hr, hempty hr, Resource.isMergeable_iff hr]
    rw [hholds, Option.any_eq_true]
    simp only [h.entryAt?_eq_some_iff, Entry.covers, hr, Bool.false_eq_true, if_false, and_assoc]

theorem Normal.add (h : b.Normal) (hc : c.Normal) : (b + c).Normal := by
  refine List.foldlRecOn (motive := Normal) c.entries _ h ?_
  exact fun acc hacc e he => hacc.putCopies (hc.entry e he).regular e.copies

theorem entryAt?_foldl_takeCopies {es : List (Entry Int)} (b : Bundle Int)
    (hes : ∀ e ∈ es, e.resource.key ≠ key) :
    (es.foldl (fun acc e => acc.takeCopies e.resource e.copies) b).entryAt? key =
      b.entryAt? key := by
  induction es generalizing b with
  | nil => rfl
  | cons e es ih =>
    obtain ⟨he, hes⟩ := List.forall_mem_cons.mp hes
    have hhead := (updates_takeCopies b e.resource e.copies).entryAt?_ne key_lessAt he.symm
    exact (ih (b.takeCopies e.resource e.copies) hes).trans hhead

theorem Normal.foldl_takeCopies (h : b.Normal) (es : List (Entry Int)) :
    (es.foldl (fun acc e => acc.takeCopies e.resource e.copies) b).Normal :=
  List.foldlRecOn (motive := Normal) es _ h fun _ hacc e _ => hacc.takeCopies e.resource e.copies

theorem Normal.sub (h : b.Normal) (c : Bundle Int) : (b - c).Normal :=
  h.foldl_takeCopies c.entries

theorem isEmpty_putCopies (b : Bundle Int) (hcopies : copies ≠ 0)
    (hempty : r.shared = false → r.isEmpty = false) : (b.putCopies r copies).isEmpty = false := by
  obtain ⟨before, after, -, hnew, -⟩ := updates_putCopies b hcopies hempty
  rw [isEmpty, hnew]
  cases b.entryAt? r.key <;> simp [moreAt]

theorem isEmpty_add (b : Bundle Int) (h : ∀ e ∈ c.entries, e.Filled) (hc : c.isEmpty = false) :
    (b + c).isEmpty = false := by
  have hfold (es : List (Entry Int)) (hes : ∀ e ∈ es, e.Filled) (b : Bundle Int)
      (hb : b.isEmpty = false ∨ es ≠ []) :
      (es.foldl (fun acc e => acc.putCopies e.resource e.copies) b).isEmpty = false := by
    induction es generalizing b with
    | nil => simpa using hb
    | cons e es ih =>
      obtain ⟨he, hes⟩ := List.forall_mem_cons.mp hes
      exact ih hes _ (.inl (isEmpty_putCopies b (Nat.ne_of_gt he.copies_pos) he.nonempty))
  exact hfold c.entries h b (.inr (by simpa [isEmpty] using hc))

/-! ## Bundles built from normalized values -/

/-- The bundles that the operations make of resources with normalized values. -/
abbrev Built (b : Bundle Int) : Prop := b.Composed fun r => r.value.Normalized

theorem Built.normal (h : b.Built) : b.Normal := by
  induction h with
  | empty => exact normal_empty
  | putCopies copies _ hr ih => exact ih.putCopies hr.regular copies
  | takeCopies copies _ _ ih => exact ih.takeCopies _ copies
  | add _ _ ihb ihc => exact ihb.add ihc
  | sub _ _ ihb _ => exact ihb.sub _
  | filter p _ ih => exact ih.filter p

end Bundle

end RoleLottery
