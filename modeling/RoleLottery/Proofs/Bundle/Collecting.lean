import RoleLottery.Proofs.Bundle.Pointwise

/-!
# Collecting resources

Sums of canonical bundles associate exactly, with the entries in the same order, so a list of
resources can be collected in parts. Collected in another order it gives the same bundle, since what
each key gets does not depend on the order.
-/

namespace RoleLottery.Bundle

variable {a b c : Bundle Int} {e : Entry Int}

/-! ## Sums of three bundles -/

theorem Canonical.raise_add (hb : b.Canonical) (hc : c.Canonical) (he : e.Canonical) :
    (b + c).raise e = c.raise (b.raise e) := by
  refine ((hb.add hc).raise he).ext (hc.raise (hb.raise he)) ?_ ?_
  · rw [key_raise, key_raise, key_raise]
  · rw [content_raise, content_raise, content_raise, key_raise, hb.contentAt_add hc,
      Content.join_assoc (alike_content_contentAt e b) (alike_contentAt b c _)]

theorem Canonical.isNone_entryAt?_add (ha : a.Canonical) (hb : b.Canonical) (key : EntryKey Int) :
    ((a + b).entryAt? key).isNone = ((a.entryAt? key).isNone && (b.entryAt? key).isNone) := by
  rw [ha.keyed.entryAt?_add hb, Option.isNone_or, Option.isNone_map]

/-- The entries of a sum stand in the order in which they came, however the sum is made. -/
theorem Canonical.add_assoc (ha : a.Canonical) (hb : b.Canonical) (hc : c.Canonical) :
    a + b + c = a + (b + c) := by
  -- Both have the entries of `a` with what `b` and `c` add to them, then those that are new in `b`
  -- with what `c` adds, then those that are new in `c`.
  have hraised : (a.entries.map b.raise).map c.raise = a.entries.map (b + c).raise := by
    rw [List.map_map]
    exact List.map_congr_left fun e he => (hb.raise_add hc (ha.entry e he)).symm
  have hsecond : (b.entries.map c.raise).filter (fun e => (a.entryAt? e.resource.key).isNone) =
      (b.entries.filter fun e => (a.entryAt? e.resource.key).isNone).map c.raise := by
    simp only [List.filter_map, Function.comp_def, key_raise]
  have hthird : (c.entries.filter fun e => ((a + b).entryAt? e.resource.key).isNone) =
      (c.entries.filter fun e => (b.entryAt? e.resource.key).isNone).filter
        fun e => (a.entryAt? e.resource.key).isNone := by
    simp only [List.filter_filter, ha.isNone_entryAt?_add hb]
  have hentries : (a + b + c).entries = (a + (b + c)).entries := by
    rw [(ha.add hb).keyed.entries_add hc, ha.keyed.entries_add hb,
      ha.keyed.entries_add (hb.add hc), hb.keyed.entries_add hc, List.map_append,
      List.filter_append, hraised, hsecond, hthird, List.append_assoc]
  exact congrArg Bundle.mk hentries

/-! ## Lists of resources -/

section

variable {r : Resource Int} {rs rs' xs ys : List (Resource Int)} {key : EntryKey Int}

theorem canonical_ofList (h : ∀ r ∈ rs, r.value.Constructed) : (ofList rs).Canonical :=
  Assembled.canonical (composed_ofList h)

theorem insert_eq_add (b : Bundle Int) (r : Resource Int) : b.insert r = b + ofList [r] := by
  by_cases hempty : r.shared = false ∧ r.isEmpty = true
  · have hsame (b : Bundle Int) : b.insert r = b := by
      simp [insert, putCopies, hempty.1, hempty.2]
    rw [ofList, List.foldl_cons, hsame, hsame]
    rfl
  · have hnonempty : r.shared = false → r.isEmpty = false := by simpa using hempty
    have hsingle : ofList [r] = ⟨[.single r 1]⟩ :=
      congrArg Bundle.mk (entries_putCopies_of_absent rfl Nat.one_ne_zero hnonempty)
    have hcopies : (Entry.single r 1).copies = 1 := by
      cases hr : r.shared <;> simp [Entry.single, Entry.copies, hr]
    rw [hsingle]
    change b.putCopies r 1 = b.putCopies r (Entry.single r 1).copies
    rw [hcopies]

theorem Canonical.foldl_insert (hb : b.Canonical) (h : ∀ r ∈ rs, r.value.Constructed) :
    rs.foldl insert b = b + ofList rs := by
  induction rs generalizing b with
  | nil => rfl
  | cons r rs ih =>
    obtain ⟨hr, hrs⟩ := List.forall_mem_cons.mp h
    have hsingle : (ofList [r]).Canonical := canonical_ofList (by simpa using hr)
    have hcons : ofList (r :: rs) = ofList [r] + ofList rs := ih hsingle hrs
    have hinsert : (b.insert r).Canonical := hb.putCopies hr.canonical 1
    rw [List.foldl_cons, ih hinsert hrs, insert_eq_add, hcons,
      hb.add_assoc hsingle (canonical_ofList hrs)]

theorem ofList_append (hxs : ∀ r ∈ xs, r.value.Constructed)
    (hys : ∀ r ∈ ys, r.value.Constructed) : ofList (xs ++ ys) = ofList xs + ofList ys := by
  rw [ofList, List.foldl_append]
  exact (canonical_ofList hxs).foldl_insert hys

theorem contentAt_ofList_cons (hr : r.value.Constructed) (hrs : ∀ r ∈ rs, r.value.Constructed) :
    (ofList (r :: rs)).contentAt key =
      ((ofList [r]).contentAt key).join ((ofList rs).contentAt key) := by
  have hsingle : ∀ s ∈ [r], s.value.Constructed := by simpa using hr
  rw [← List.singleton_append, ofList_append hsingle hrs,
    (canonical_ofList hsingle).contentAt_add (canonical_ofList hrs)]

theorem contentAt_ofList_perm (hperm : rs.Perm rs') (h : ∀ r ∈ rs, r.value.Constructed) :
    (ofList rs).contentAt key = (ofList rs').contentAt key := by
  induction hperm with
  | nil => rfl
  | cons r hperm ih =>
    obtain ⟨hr, hrs⟩ := List.forall_mem_cons.mp h
    have hrs' := fun s hs => hrs s (hperm.mem_iff.mpr hs)
    rw [contentAt_ofList_cons hr hrs, contentAt_ofList_cons hr hrs', ih hrs]
  | swap s r rs =>
    obtain ⟨hr, hsrs⟩ := List.forall_mem_cons.mp h
    obtain ⟨hs, hrs⟩ := List.forall_mem_cons.mp hsrs
    have hrrs : ∀ t ∈ r :: rs, t.value.Constructed := List.forall_mem_cons.mpr ⟨hr, hrs⟩
    rw [contentAt_ofList_cons hr hsrs, contentAt_ofList_cons hs hrs,
      contentAt_ofList_cons hs hrrs, contentAt_ofList_cons hr hrs,
      ← Content.join_assoc (alike_contentAt _ _ key) (alike_contentAt _ _ key),
      Content.join_comm (alike_contentAt (ofList [r]) (ofList [s]) key),
      Content.join_assoc (alike_contentAt _ _ key) (alike_contentAt _ _ key)]
  | trans hperm _ ih ih' =>
    exact (ih h).trans (ih' fun s hs => h s (hperm.mem_iff.mpr hs))

/-- Resources can be collected in any order, which is that of the entries at most, and in parts,
which leaves the order as it is. -/
theorem collected_in_any_order (h : ∀ r ∈ rs, r.value.Constructed) :
    (∀ rs', rs.Perm rs' → (ofList rs == ofList rs') = true) ∧
    ∀ n, ofList (rs.take n) + ofList (rs.drop n) = ofList rs := by
  refine ⟨fun rs' hperm => ?_, fun n => ?_⟩
  · have hrs' : ∀ r ∈ rs', r.value.Constructed := fun r hr => h r (hperm.mem_iff.mpr hr)
    rw [(canonical_ofList h).beq_iff (canonical_ofList hrs')]
    exact fun key => contentAt_ofList_perm hperm h
  · rw [← ofList_append (fun r hr => h r (List.mem_of_mem_take hr))
      (fun r hr => h r (List.mem_of_mem_drop hr)), List.take_append_drop]

end

/-- Cores and ports in two parts each, a volume twice, and no memory. -/
def deliveries : List (Resource Int) :=
  [⟨"cpus", .ofAmount 1500, none, false, none⟩,
    ⟨"disk", .ofAmount 10000, none, true, some "vol-1"⟩,
    ⟨"mem", .ofAmount 0, none, false, none⟩,
    ⟨"ports", .ofRanges [⟨1, 3⟩, ⟨8, 9⟩], none, false, none⟩,
    ⟨"cpus", .ofAmount 500, none, false, none⟩,
    ⟨"disk", .ofAmount 10000, none, true, some "vol-1"⟩,
    ⟨"ports", .ofRanges [⟨4, 6⟩], none, false, none⟩]

/-- Collected backwards the entries stand in another order. -/
theorem collected_in_any_order_deliveries :
    (∀ r ∈ deliveries, r.value.Constructed) ∧
    (ofList deliveries == ofList deliveries.reverse) = true ∧
    ofList deliveries ≠ ofList deliveries.reverse ∧
    ofList (deliveries.take 4) + ofList (deliveries.drop 4) = ofList deliveries := by
  have hdeliveries : ∀ r ∈ deliveries, r.value.Constructed := by
    simp only [deliveries, List.forall_mem_cons]
    exact ⟨.ofAmount _, .ofAmount _, .ofAmount _, .ofRanges _, .ofAmount _, .ofAmount _,
      .ofRanges _, by simp⟩
  obtain ⟨hany, hparts⟩ := collected_in_any_order hdeliveries
  exact ⟨hdeliveries, hany _ (List.reverse_perm _).symm, by decide +kernel, hparts 4⟩

end RoleLottery.Bundle
