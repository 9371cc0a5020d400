import RoleLottery.Proofs.Bundle.Keys
import RoleLottery.Proofs.Content

/-!
# Canonical bundles

A canonical bundle has one entry for each key, and the entries have content in canonical form. All
operations make such bundles of constructed values. A sum has the entries of the first bundle, each
with what the second one has at its key, and then the rest of the second. A difference has what the
second bundle leaves of each entry of the first.
-/

namespace RoleLottery

/-! ## Entries -/

namespace Entry

/-- An entry has content, and its value is in canonical form. -/
structure Canonical (e : Entry Int) : Prop extends Filled e where
  value : e.resource.value.Canonical

variable {e e' : Entry Int} {r : Resource Int} {copies : Nat}

theorem Canonical.joined (he : e.Canonical) (hr : r.value.Canonical)
    (hempty : r.shared = false → r.isEmpty = false) (h : e.resource.key = r.key) :
    (e.joined r copies).Canonical := by
  refine ⟨he.toFilled.joined h fun hshared => ?_, value_joined he.value (he.value.merge _)⟩
  have hnonempty := he.nonempty ((Resource.shared_eq_of_key_eq h).trans hshared)
  exact he.value.merge_nonempty hr hnonempty (hempty hshared)

theorem Canonical.reduced? (he : e.Canonical) (hr : r.value.Canonical)
    (h : e.resource.key = r.key) (he' : e.reduced? r copies = some e') : e'.Canonical :=
  ⟨he.toFilled.reduced? h he', value_reduced? he' he.value (he.value.remove hr)⟩

end Entry

/-! ## Bundles -/

namespace Bundle

variable {b c : Bundle Int} {r : Resource Int} {e : Entry Int} {copies : Nat} {key : EntryKey Int}

structure Canonical (b : Bundle Int) : Prop where
  keyed : b.Keyed
  entry : ∀ e ∈ b.entries, e.Canonical

theorem Canonical.filled (h : b.Canonical) : ∀ e ∈ b.entries, e.Filled := fun e he =>
  (h.entry e he).toFilled

theorem canonical_empty : Canonical {} :=
  ⟨List.nodup_nil, by simp [EmptyCollection.emptyCollection, empty]⟩

theorem Canonical.putCopies (h : b.Canonical) (hr : r.value.Canonical) (copies : Nat) :
    (b.putCopies r copies).Canonical := by
  refine ⟨h.keyed.putCopies r copies, ?_⟩
  rcases putCopies_cases b r copies with hsame | ⟨hcopies, hempty, hupdates⟩
  · rw [hsame]
    exact h.entry
  · refine hupdates.forall_entries h.entry (forall_moreAt h.entry ?_ ?_)
    · exact ⟨Entry.filled_single hcopies hempty, hr⟩
    · exact fun e he hkey => he.joined hr hempty hkey

theorem Canonical.takeCopies (h : b.Canonical) (hr : r.value.Canonical) (copies : Nat) :
    (b.takeCopies r copies).Canonical :=
  ⟨h.keyed.takeCopies r copies,
    (updates_takeCopies b r copies).forall_entries h.entry
      (forall_lessAt h.entry fun _ _ he hkey hreduced => he.reduced? hr hkey hreduced)⟩

theorem Canonical.add (h : b.Canonical) (hc : c.Canonical) : (b + c).Canonical :=
  List.foldlRecOn (motive := Canonical) c.entries _ h fun _ hacc e he =>
    hacc.putCopies (hc.entry e he).value e.copies

theorem Canonical.sub (h : b.Canonical) (hc : c.Canonical) : (b - c).Canonical :=
  List.foldlRecOn (motive := Canonical) c.entries _ h fun _ hacc e he =>
    hacc.takeCopies (hc.entry e he).value e.copies

theorem Canonical.filter (h : b.Canonical) (p : Resource Int → Bool) : (b.filter p).Canonical :=
  ⟨h.keyed.filter p, fun e he => h.entry e (List.mem_filter.mp he).1⟩

/-- The bundles that the operations make of resources with constructed values. -/
abbrev Assembled (b : Bundle Int) : Prop := b.Composed fun r => r.value.Constructed

theorem Assembled.canonical (h : b.Assembled) : b.Canonical := by
  induction h with
  | empty => exact canonical_empty
  | putCopies copies _ hr ih => exact ih.putCopies hr.canonical copies
  | takeCopies copies _ hr ih => exact ih.takeCopies hr.canonical copies
  | add _ _ ihb ihc => exact ihb.add ihc
  | sub _ _ ihb ihc => exact ihb.sub ihc
  | filter p _ ih => exact ih.filter p

/-! ## Entries of sums and differences -/

/-- An entry with what the bundle has at its key. -/
def raise (c : Bundle Int) (e : Entry Int) : Entry Int :=
  (c.entryAt? e.resource.key).elim e fun d => e.joined d.resource d.copies

/-- What the bundle leaves of an entry. -/
def lower (c : Bundle Int) (e : Entry Int) : Option (Entry Int) :=
  (c.entryAt? e.resource.key).elim (some e) fun d => e.reduced? d.resource d.copies

theorem key_raise (c : Bundle Int) (e : Entry Int) :
    (c.raise e).resource.key = e.resource.key := by
  unfold raise
  cases h : c.entryAt? e.resource.key with
  | none => rfl
  | some d =>
    have hkey := (mem_of_entryAt?_eq_some h).2
    exact Entry.key_joined (Resource.accepts_iff.mpr hkey.symm) d.copies

theorem key_lower {e' : Entry Int} (h : c.lower e = some e') :
    e'.resource.key = e.resource.key := by
  unfold lower at h
  cases hat : c.entryAt? e.resource.key with
  | none =>
    rw [hat] at h
    rw [Option.some.inj h]
  | some d =>
    rw [hat] at h
    have hkey := (mem_of_entryAt?_eq_some hat).2
    exact Entry.key_reduced? (Resource.accepts_iff.mpr hkey.symm) h

theorem entryAt?_cons (d : Entry Int) (es : List (Entry Int)) (key : EntryKey Int) :
    entryAt? ⟨d :: es⟩ key = if d.resource.key = key then some d else entryAt? ⟨es⟩ key := by
  unfold entryAt?
  rw [List.find?_cons]
  by_cases h : d.resource.key = key <;> simp [h]

theorem entryAt?_eq_none_iff : b.entryAt? key = none ↔ ∀ e ∈ b.entries, e.resource.key ≠ key := by
  simp [entryAt?]

theorem keyed_cons {d : Entry Int} {es : List (Entry Int)} :
    Keyed ⟨d :: es⟩ ↔ entryAt? ⟨es⟩ d.resource.key = none ∧ Keyed ⟨es⟩ := by
  rw [entryAt?_eq_none_iff, Keyed, Keyed, List.map_cons, List.nodup_cons]
  simp

theorem raise_of_absent (h : c.entryAt? e.resource.key = none) : c.raise e = e := by
  rw [raise, h]
  rfl

theorem lower_of_absent (h : c.entryAt? e.resource.key = none) : c.lower e = some e := by
  rw [lower, h]
  rfl

theorem Canonical.raise (hc : c.Canonical) (he : e.Canonical) : (c.raise e).Canonical := by
  cases hat : c.entryAt? e.resource.key with
  | none =>
    rw [raise_of_absent hat]
    exact he
  | some d =>
    obtain ⟨hd, hkey⟩ := mem_of_entryAt?_eq_some hat
    have hdentry := hc.entry d hd
    rw [Bundle.raise, hat]
    exact he.joined hdentry.value hdentry.nonempty hkey.symm

theorem Canonical.lower {e' : Entry Int} (hc : c.Canonical) (he : e.Canonical)
    (h : c.lower e = some e') : e'.Canonical := by
  cases hat : c.entryAt? e.resource.key with
  | none =>
    rw [lower_of_absent hat] at h
    exact Option.some.inj h ▸ he
  | some d =>
    obtain ⟨hd, hkey⟩ := mem_of_entryAt?_eq_some hat
    rw [Bundle.lower, hat] at h
    exact he.reduced? (hc.entry d hd).value hkey.symm h

theorem raise_cons (d : Entry Int) (es : List (Entry Int)) (e : Entry Int) :
    raise ⟨d :: es⟩ e =
      if d.resource.key = e.resource.key then e.joined d.resource d.copies else raise ⟨es⟩ e := by
  rw [raise, entryAt?_cons, raise]
  split <;> rfl

theorem lower_cons (d : Entry Int) (es : List (Entry Int)) (e : Entry Int) :
    lower ⟨d :: es⟩ e =
      if d.resource.key = e.resource.key then e.reduced? d.resource d.copies else lower ⟨es⟩ e := by
  rw [lower, entryAt?_cons, lower]
  split <;> rfl

theorem map_raise_cons_of_absent {d : Entry Int} {es : List (Entry Int)}
    (h : b.entryAt? d.resource.key = none) :
    b.entries.map (raise ⟨d :: es⟩) = b.entries.map (raise ⟨es⟩) := by
  refine List.map_congr_left fun e he => ?_
  rw [raise_cons, if_neg (Ne.symm (entryAt?_eq_none_iff.mp h e he))]

theorem map_raise_joined {d : Entry Int} {es : List (Entry Int)}
    (h : entryAt? ⟨es⟩ d.resource.key = none) (entries : List (Entry Int)) :
    (entries.map fun e => if e.resource.key = d.resource.key then e.joined d.resource d.copies
      else e).map (raise ⟨es⟩) = entries.map (raise ⟨d :: es⟩) := by
  rw [List.map_map]
  refine List.map_congr_left fun e _ => ?_
  rw [Function.comp_apply, raise_cons]
  by_cases hkey : e.resource.key = d.resource.key
  · rw [if_pos hkey, if_pos hkey.symm]
    rw [← hkey, ← Entry.key_joined (Resource.accepts_iff.mpr hkey) d.copies] at h
    exact raise_of_absent h
  · rw [if_neg hkey, if_neg (Ne.symm hkey)]

theorem Keyed.entries_takeCopies (h : b.Keyed) (r : Resource Int) (copies : Nat) :
    (b.takeCopies r copies).entries =
      b.entries.filterMap fun e => if e.resource.key = r.key then e.reduced? r copies else some e := by
  obtain ⟨before, after, hold, hnew, hother⟩ := (updates_takeCopies b r copies).key_after h
  have hsame (es : List (Entry Int)) (hes : ∀ e ∈ es, e ∈ before ++ after) :
      (es.filterMap fun e => if e.resource.key = r.key then e.reduced? r copies else some e) = es := by
    rw [List.filterMap_congr fun e he => if_neg (hother e (hes e he)), List.filterMap_some]
  have hbefore := hsame before fun e he => List.mem_append_left _ he
  have hafter := hsame after fun e he => List.mem_append_right _ he
  rw [hnew, hold, List.filterMap_append, List.filterMap_append, hbefore, hafter]
  cases hat : b.entryAt? r.key with
  | none => rfl
  | some e =>
    have hkey := (mem_of_entryAt?_eq_some hat).2
    simp only [Option.toList_some, List.filterMap_cons, List.filterMap_nil, if_pos hkey, lessAt,
      Option.bind_some]
    cases e.reduced? r copies <;> rfl

theorem entries_putCopies_of_absent (hat : b.entryAt? r.key = none) (hcopies : copies ≠ 0)
    (hempty : r.shared = false → r.isEmpty = false) :
    (b.putCopies r copies).entries = b.entries ++ [.single r copies] := by
  rw [putCopies_eq b hcopies hempty, accepts_eq_key, getD_alterFirst?_of_none hat]

theorem Keyed.entries_putCopies_of_present (h : b.Keyed) (hat : b.entryAt? r.key = some e)
    (hcopies : copies ≠ 0) (hempty : r.shared = false → r.isEmpty = false) :
    (b.putCopies r copies).entries =
      b.entries.map fun e => if e.resource.key = r.key then e.joined r copies else e := by
  obtain ⟨before, after, hold, hnew, hother⟩ := (updates_putCopies b hcopies hempty).key_after h
  have hsame (es : List (Entry Int)) (hes : ∀ e ∈ es, e ∈ before ++ after) :
      (es.map fun e => if e.resource.key = r.key then e.joined r copies else e) = es := by
    rw [List.map_congr_left fun e he => if_neg (hother e (hes e he)), List.map_id']
  have hbefore := hsame before fun e he => List.mem_append_left _ he
  have hafter := hsame after fun e he => List.mem_append_right _ he
  rw [hat] at hold hnew
  rw [hnew, hold, List.map_append, List.map_append, hbefore, hafter]
  simp [moreAt, (mem_of_entryAt?_eq_some hat).2]

/-- The induction is on the entries that are taken; those that come later have other keys. -/
theorem Keyed.entries_sub (h : b.Keyed) (hc : c.Keyed) :
    (b - c).entries = b.entries.filterMap c.lower := by
  obtain ⟨es⟩ := c
  change (es.foldl (fun acc e => acc.takeCopies e.resource e.copies) b).entries = _
  induction es generalizing b with
  | nil => exact List.filterMap_some.symm
  | cons d es ih =>
    obtain ⟨hd, hes⟩ := keyed_cons.mp hc
    rw [List.foldl_cons, ih (h.takeCopies d.resource d.copies) hes, h.entries_takeCopies,
      List.filterMap_filterMap]
    refine List.filterMap_congr fun e he => ?_
    rw [lower_cons]
    by_cases hkey : e.resource.key = d.resource.key
    · rw [if_pos hkey, if_pos hkey.symm]
      cases hless : e.reduced? d.resource d.copies with
      | none => rfl
      | some e' =>
        rw [← hkey, ← Entry.key_reduced? (Resource.accepts_iff.mpr hkey) hless] at hd
        exact lower_of_absent hd
    · rw [if_neg hkey, if_neg (Ne.symm hkey), Option.bind_some]

theorem Keyed.entries_add (h : b.Keyed) (hc : c.Canonical) :
    (b + c).entries = b.entries.map c.raise ++
      c.entries.filter fun d => (b.entryAt? d.resource.key).isNone := by
  obtain ⟨es⟩ := c
  change (es.foldl (fun acc e => acc.putCopies e.resource e.copies) b).entries = _
  induction es generalizing b with
  | nil =>
    rw [List.map_congr_left fun e _ => raise_of_absent rfl, List.map_id']
    exact (List.append_nil b.entries).symm
  | cons d es ih =>
    obtain ⟨hd, hes⟩ := keyed_cons.mp hc.keyed
    obtain ⟨hdentry, hentries⟩ := List.forall_mem_cons.mp hc.entry
    have hcopies : d.copies ≠ 0 := Nat.ne_of_gt hdentry.copies_pos
    have hrest : (es.filter fun x =>
        ((b.putCopies d.resource d.copies).entryAt? x.resource.key).isNone) =
        es.filter fun x => (b.entryAt? x.resource.key).isNone := by
      refine List.filter_congr fun x hx => ?_
      have hne := entryAt?_eq_none_iff.mp hd x hx
      rw [(updates_putCopies b hcopies hdentry.nonempty).entryAt?_ne key_moreAt hne]
    rw [List.foldl_cons, ih (h.putCopies d.resource d.copies) ⟨hes, hentries⟩, hrest]
    cases hat : b.entryAt? d.resource.key with
    | none =>
      rw [entries_putCopies_of_absent hat hcopies hdentry.nonempty, hdentry.single_eq,
        map_raise_cons_of_absent hat, List.map_append, List.map_singleton, raise_of_absent hd,
        List.filter_cons_of_pos (by simp [hat]), List.append_assoc, List.singleton_append]
    | some old =>
      rw [h.entries_putCopies_of_present hat hcopies hdentry.nonempty, map_raise_joined hd,
        List.filter_cons_of_neg (by simp [hat])]

/-! ## One key -/

theorem entryAt?_filterMap {es : List (Entry Int)} {f : Entry Int → Option (Entry Int)}
    (h : Keyed ⟨es⟩) (hf : ∀ e e', f e = some e' → e'.resource.key = e.resource.key)
    (key : EntryKey Int) : entryAt? ⟨es.filterMap f⟩ key = (entryAt? ⟨es⟩ key).bind f := by
  induction es with
  | nil => rfl
  | cons e es ih =>
    obtain ⟨he, hes⟩ := keyed_cons.mp h
    rw [entryAt?_cons, List.filterMap_cons]
    cases hfe : f e with
    | none =>
      dsimp only
      rw [ih hes]
      by_cases hkey : e.resource.key = key
      · rw [if_pos hkey, ← hkey, he, Option.bind_none, Option.bind_some, hfe]
      · rw [if_neg hkey]
    | some e' =>
      dsimp only
      rw [entryAt?_cons, hf e e' hfe, ih hes]
      by_cases hkey : e.resource.key = key
      · rw [if_pos hkey, if_pos hkey, Option.bind_some, hfe]
      · rw [if_neg hkey, if_neg hkey]

theorem entryAt?_append (es fs : List (Entry Int)) (key : EntryKey Int) :
    entryAt? ⟨es ++ fs⟩ key = (entryAt? ⟨es⟩ key).or (entryAt? ⟨fs⟩ key) :=
  List.find?_append

theorem entryAt?_filter {p : Entry Int → Bool} (hp : ∀ e, e.resource.key = key → p e = true) :
    entryAt? ⟨c.entries.filter p⟩ key = c.entryAt? key := by
  unfold entryAt?
  rw [List.find?_filter]
  congr
  funext e
  by_cases hkey : e.resource.key = key
  · simp [hkey, hp e hkey]
  · simp [hkey]

theorem Keyed.entryAt?_sub (h : b.Keyed) (hc : c.Keyed) (key : EntryKey Int) :
    (b - c).entryAt? key = (b.entryAt? key).bind c.lower := by
  have hat := entryAt?_filterMap h (fun _ _ => key_lower (c := c)) key
  rwa [← h.entries_sub hc] at hat

theorem Keyed.entryAt?_add (h : b.Keyed) (hc : c.Canonical) (key : EntryKey Int) :
    (b + c).entryAt? key = ((b.entryAt? key).map c.raise).or (c.entryAt? key) := by
  have hkeys (e e' : Entry Int) (he' : some (c.raise e) = some e') :
      e'.resource.key = e.resource.key := by
    rw [← Option.some.inj he']
    exact key_raise c e
  have hraised : entryAt? ⟨b.entries.map c.raise⟩ key = (b.entryAt? key).map c.raise := by
    rw [← List.filterMap_eq_map', entryAt?_filterMap h hkeys, Option.map_eq_bind]
    rfl
  have hsum : b + c = ⟨b.entries.map c.raise ++
      c.entries.filter fun d => (b.entryAt? d.resource.key).isNone⟩ :=
    congrArg Bundle.mk (h.entries_add hc)
  rw [hsum, entryAt?_append, hraised]
  cases hat : b.entryAt? key with
  | some e => rfl
  | none => rw [entryAt?_filter fun e he => by rw [he, hat, Option.isNone_none]]

/-- Entries of another bundle have other keys, so each is there before any is taken. -/
theorem Keyed.contains_iff (h : b.Keyed) (hc : c.Keyed) (hfilled : ∀ e ∈ c.entries, e.Filled) :
    b.contains c = true ↔
      ∀ d ∈ c.entries, (b.entryAt? d.resource.key).any (·.covers d.resource d.copies) = true := by
  obtain ⟨es⟩ := c
  change b.containsAll es = true ↔ _
  induction es generalizing b with
  | nil => simp [containsAll]
  | cons d es ih =>
    obtain ⟨hd, hes⟩ := keyed_cons.mp hc
    obtain ⟨hdentry, hentries⟩ := List.forall_mem_cons.mp hfilled
    have hcopies : d.copies ≠ 0 := Nat.ne_of_gt hdentry.copies_pos
    rw [containsAll, Bool.and_eq_true, h.holds_eq hcopies hdentry.nonempty,
      ih (h.takeCopies d.resource d.copies) hes hentries, List.forall_mem_cons]
    refine and_congr_right fun _ => forall₂_congr fun x hx => ?_
    have hne := entryAt?_eq_none_iff.mp hd x hx
    rw [(updates_takeCopies b d.resource d.copies).entryAt?_ne key_lessAt hne]

end Bundle

end RoleLottery
