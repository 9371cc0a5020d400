import RoleLottery.Proofs.Bundle.Canonical

/-!
# Bundles as maps

A bundle stands for a map from keys to contents, which is nothing at all but finitely many keys. In
exact amounts the operations on canonical bundles are the operations on contents, key by key, and
bundles with the same map have the same entries in some order.
-/

namespace RoleLottery

/-- What a bundle has at a key without an entry. -/
def EntryKey.nothing {α : Type} : EntryKey α → Content
  | .quantity _ _ _ .amount => .amount 0
  | .quantity _ _ _ .ranges => .numbers ∅
  | .quantity _ _ _ .labels => .labels ∅
  | .shared _ => .copies 0

theorem Resource.eq_of_key_of_value {r s : Resource Int} (hr : r.shared = false)
    (h : r.key = s.key) (hvalue : r.value = s.value) : r = s := by
  have hs := (shared_eq_of_key_eq h).symm.trans hr
  simp only [key, hr, hs, Bool.false_eq_true, if_false, EntryKey.quantity.injEq] at h
  cases r
  cases s
  simp_all

/-! ## Contents of entries -/

namespace Entry

/-- The copies of a shared instance, or the content of a quantity. -/
def content (e : Entry Int) : Content :=
  if e.resource.shared then .copies e.copies else e.resource.value.content

variable {d e e' : Entry Int}

theorem content_of_shared (h : e.resource.shared = true) : e.content = .copies e.copies :=
  if_pos h

theorem content_of_unshared (h : e.resource.shared = false) :
    e.content = e.resource.value.content :=
  if_neg (Bool.eq_false_iff.mp h)

theorem zero_content (e : Entry Int) : e.content.zero = e.resource.key.nothing := by
  cases h : e.resource.shared with
  | true =>
    rw [content_of_shared h, Resource.key, if_pos h]
    rfl
  | false =>
    rw [content_of_unshared h, Resource.key, if_neg (Bool.eq_false_iff.mp h)]
    cases e.resource.value <;> rfl

theorem Canonical.content_not_isNothing (he : e.Canonical) : ¬e.content.IsNothing := by
  cases h : e.resource.shared with
  | true =>
    rw [content_of_shared h]
    exact Nat.ne_of_gt he.copies_pos
  | false =>
    rw [content_of_unshared h, ← he.value.isEmpty_eq_false_iff]
    exact he.nonempty h

theorem Canonical.zero_within (he : e.Canonical) : e.content.zero.Within e.content :=
  Content.zero_within_of_not_isNothing he.content_not_isNothing

theorem content_joined (h : e.resource.key = d.resource.key) :
    (e.joined d.resource d.copies).content = e.content.join d.content := by
  have hshared := Resource.shared_eq_of_key_eq h
  cases hd : d.resource.shared with
  | true =>
    rw [joined_of_shared hd, Amount.tally_int, content_of_shared hd,
      content_of_shared (hshared.trans hd)]
    exact content_of_shared (hshared.trans hd)
  | false =>
    rw [joined_of_unshared hd, content_of_unshared hd, content_of_unshared (hshared.trans hd),
      ← Value.content_merge]
    exact content_of_unshared (hshared.trans hd)

theorem content_reduced? (h : e.resource.key = d.resource.key)
    (he' : e.reduced? d.resource d.copies = some e') :
    e'.content = e.content.without d.content := by
  have hshared := Resource.shared_eq_of_key_eq h
  rcases reduced?_eq_some he' with ⟨hd, -, rfl⟩ | ⟨hd, -, rfl⟩
  · rw [content_of_shared hd, content_of_shared (hshared.trans hd)]
    exact content_of_shared (hshared.trans hd)
  · rw [content_of_unshared hd, content_of_unshared (hshared.trans hd), ← Value.content_remove]
    exact content_of_unshared (hshared.trans hd)

theorem Canonical.reduced?_eq_none_iff (he : e.Canonical) (hd : d.Canonical)
    (h : e.resource.key = d.resource.key) :
    e.reduced? d.resource d.copies = none ↔ (e.content.without d.content).IsNothing := by
  have hshared := Resource.shared_eq_of_key_eq h
  cases hds : d.resource.shared with
  | true =>
    rw [Entry.reduced?, if_pos hds, content_of_shared hds, content_of_shared (hshared.trans hds)]
    have hcopies : e.copies - d.copies = 0 ↔ e.copies ≤ d.copies := Nat.sub_eq_zero_iff_le
    simpa [Content.without, Content.IsNothing] using hcopies.symm
  | false =>
    have hempty := (he.value.remove hd.value).isEmpty_iff
    rw [Value.content_remove] at hempty
    rw [Entry.reduced?, if_neg (Bool.eq_false_iff.mp hds), content_of_unshared hds,
      content_of_unshared (hshared.trans hds), ← hempty]
    cases hleft : (e.resource.value.remove d.resource.value).isEmpty <;>
      simp [Resource.isEmpty, hleft]

theorem Canonical.covers_iff (he : e.Canonical) (hd : d.Canonical)
    (h : e.resource.key = d.resource.key) :
    e.covers d.resource d.copies = true ↔ d.content.Within e.content := by
  have hshared := Resource.shared_eq_of_key_eq h
  cases hds : d.resource.shared with
  | true =>
    rw [covers, if_pos hds, content_of_shared hds, content_of_shared (hshared.trans hds)]
    exact decide_eq_true_iff
  | false =>
    rw [covers, if_neg (Bool.eq_false_iff.mp hds), content_of_unshared hds,
      content_of_unshared (hshared.trans hds)]
    exact he.value.contains_iff hd.value

theorem Canonical.ext (he : e.Canonical) (hd : d.Canonical)
    (h : e.resource.key = d.resource.key) (hcontent : e.content = d.content) : e = d := by
  have hshared := Resource.shared_eq_of_key_eq h
  rw [← he.single_eq, ← hd.single_eq]
  cases hds : d.resource.shared with
  | true =>
    rw [content_of_shared hds, content_of_shared (hshared.trans hds)] at hcontent
    rw [Resource.eq_of_shared hds h, Content.copies.inj hcontent]
  | false =>
    rw [content_of_unshared hds, content_of_unshared (hshared.trans hds)] at hcontent
    have hresource : e.resource = d.resource :=
      Resource.eq_of_key_of_value (hshared.trans hds) h (he.value.ext hd.value hcontent)
    rw [single, single, hresource, hds]
    rfl

end Entry

/-! ## Contents of bundles -/

namespace Bundle

variable {a b c : Bundle Int} {key : EntryKey Int}

/-- What a bundle has at a key. -/
def contentAt (b : Bundle Int) (key : EntryKey Int) : Content :=
  (b.entryAt? key).elim key.nothing Entry.content

theorem contentAt_of_some {e : Entry Int} (h : b.entryAt? key = some e) :
    b.contentAt key = e.content := by
  rw [contentAt, h]
  rfl

theorem contentAt_of_none (h : b.entryAt? key = none) : b.contentAt key = key.nothing := by
  rw [contentAt, h]
  rfl

theorem zero_nothing (key : EntryKey Int) : key.nothing.zero = key.nothing := by
  cases key with
  | quantity name role id kind => cases kind <;> rfl
  | shared r => rfl

theorem zero_contentAt (b : Bundle Int) (key : EntryKey Int) :
    (b.contentAt key).zero = key.nothing := by
  cases h : b.entryAt? key with
  | none => rw [contentAt_of_none h, zero_nothing]
  | some e => rw [contentAt_of_some h, Entry.zero_content, (mem_of_entryAt?_eq_some h).2]

theorem alike_contentAt (b c : Bundle Int) (key : EntryKey Int) :
    Content.Alike (b.contentAt key) (c.contentAt key) := by
  apply Content.alike_of_zero_eq
  rw [zero_contentAt, zero_contentAt]

theorem alike_content_contentAt (e : Entry Int) (c : Bundle Int) :
    Content.Alike e.content (c.contentAt e.resource.key) := by
  apply Content.alike_of_zero_eq
  rw [Entry.zero_content, zero_contentAt]

theorem content_raise (c : Bundle Int) (e : Entry Int) :
    (c.raise e).content = e.content.join (c.contentAt e.resource.key) := by
  cases hat : c.entryAt? e.resource.key with
  | none => rw [raise_of_absent hat, contentAt_of_none hat, ← Entry.zero_content, Content.join_zero]
  | some d =>
    have hkey := (mem_of_entryAt?_eq_some hat).2
    rw [contentAt_of_some hat, ← Entry.content_joined hkey.symm, raise, hat]
    rfl

theorem content_lower {e e' : Entry Int} (he : e.Canonical) (h : c.lower e = some e') :
    e'.content = e.content.without (c.contentAt e.resource.key) := by
  cases hat : c.entryAt? e.resource.key with
  | none =>
    rw [lower_of_absent hat] at h
    rw [contentAt_of_none hat, ← Entry.zero_content, Content.without_zero he.zero_within,
      Option.some.inj h]
  | some d =>
    have hkey := (mem_of_entryAt?_eq_some hat).2
    rw [lower, hat] at h
    rw [contentAt_of_some hat, Entry.content_reduced? hkey.symm h]

theorem Canonical.lower_eq_none_iff (hc : c.Canonical) {e : Entry Int} (he : e.Canonical) :
    c.lower e = none ↔ (e.content.without (c.contentAt e.resource.key)).IsNothing := by
  cases hat : c.entryAt? e.resource.key with
  | none =>
    rw [lower_of_absent hat, contentAt_of_none hat, ← Entry.zero_content,
      Content.without_zero he.zero_within]
    exact iff_of_false (by simp) he.content_not_isNothing
  | some d =>
    obtain ⟨hd, hkey⟩ := mem_of_entryAt?_eq_some hat
    rw [Bundle.lower, hat, contentAt_of_some hat]
    exact he.reduced?_eq_none_iff (hc.entry d hd) hkey.symm

theorem Canonical.entryAt? (h : b.Canonical) {e : Entry Int} (he : b.entryAt? key = some e) :
    e.Canonical :=
  h.entry e (mem_of_entryAt?_eq_some he).1

theorem Canonical.entryAt?_eq_none_iff (h : b.Canonical) :
    b.entryAt? key = none ↔ (b.contentAt key).IsNothing := by
  cases hat : b.entryAt? key with
  | none =>
    rw [contentAt_of_none hat, ← zero_nothing]
    exact iff_of_true rfl (Content.isNothing_zero _)
  | some e =>
    rw [contentAt_of_some hat]
    exact iff_of_false (by simp) (h.entryAt? hat).content_not_isNothing

theorem Canonical.zero_within_contentAt (h : b.Canonical) (key : EntryKey Int) :
    (b.contentAt key).zero.Within (b.contentAt key) := by
  cases hat : b.entryAt? key with
  | none =>
    rw [contentAt_of_none hat, zero_nothing]
    exact Content.within_refl _
  | some e =>
    rw [contentAt_of_some hat]
    exact (h.entryAt? hat).zero_within

theorem Canonical.contentAt_add (hb : b.Canonical) (hc : c.Canonical) (key : EntryKey Int) :
    (b + c).contentAt key = (b.contentAt key).join (c.contentAt key) := by
  have hat := hb.keyed.entryAt?_add hc key
  cases hbat : b.entryAt? key with
  | none =>
    rw [hbat, Option.map_none, Option.none_or] at hat
    rw [contentAt_of_none hbat, ← zero_contentAt c, Content.zero_join, contentAt, hat]
    rfl
  | some e =>
    have hkey := (mem_of_entryAt?_eq_some hbat).2
    rw [hbat, Option.map_some, Option.some_or] at hat
    rw [contentAt_of_some hat, contentAt_of_some hbat, content_raise, hkey]

theorem Canonical.contentAt_sub (hb : b.Canonical) (hc : c.Canonical) (key : EntryKey Int) :
    (b - c).contentAt key = (b.contentAt key).without (c.contentAt key) := by
  have hat := hb.keyed.entryAt?_sub hc.keyed key
  cases hbat : b.entryAt? key with
  | none =>
    rw [hbat, Option.bind_none] at hat
    rw [contentAt_of_none hat, contentAt_of_none hbat, ← zero_contentAt c,
      Content.zero_without (hc.zero_within_contentAt key)]
  | some e =>
    have hkey := (mem_of_entryAt?_eq_some hbat).2
    have he := hb.entryAt? hbat
    rw [hbat, Option.bind_some] at hat
    rw [contentAt_of_some hbat, ← hkey]
    rw [← hkey] at hat
    cases hlower : c.lower e with
    | none =>
      have hnothing := (hc.lower_eq_none_iff he).mp hlower
      have hzero := Content.zero_within_without he.zero_within (c.contentAt e.resource.key)
      rw [← Content.zero_of_without e.content (c.contentAt e.resource.key)] at hzero
      rw [contentAt_of_none (hat.trans hlower), Content.eq_zero_of_isNothing hzero hnothing,
        Content.zero_of_without, Entry.zero_content]
    | some e' => rw [contentAt_of_some (hat.trans hlower), content_lower he hlower]

theorem Canonical.any_covers_iff (hb : b.Canonical) {d : Entry Int} (hd : d.Canonical) :
    (b.entryAt? d.resource.key).any (·.covers d.resource d.copies) = true ↔
      d.content.Within (b.contentAt d.resource.key) := by
  cases hat : b.entryAt? d.resource.key with
  | none =>
    rw [contentAt_of_none hat]
    refine iff_of_false (by simp) fun hwithin => hd.content_not_isNothing ?_
    apply Content.isNothing_of_within hwithin
    rw [← zero_nothing]
    exact Content.isNothing_zero _
  | some e =>
    rw [contentAt_of_some hat, Option.any_some]
    exact (hb.entryAt? hat).covers_iff hd (mem_of_entryAt?_eq_some hat).2

theorem Canonical.contains_iff (hb : b.Canonical) (hc : c.Canonical) :
    b.contains c = true ↔ ∀ key, (c.contentAt key).Within (b.contentAt key) := by
  rw [hb.keyed.contains_iff hc.keyed hc.filled]
  constructor
  · intro hall key
    cases hat : c.entryAt? key with
    | none =>
      rw [contentAt_of_none hat, ← zero_contentAt b]
      exact hb.zero_within_contentAt key
    | some d =>
      obtain ⟨hd, rfl⟩ := mem_of_entryAt?_eq_some hat
      rw [contentAt_of_some hat]
      exact (hb.any_covers_iff (hc.entry d hd)).mp (hall d hd)
  · intro hall d hd
    have hat := hc.keyed.entryAt?_eq_some_iff.mpr ⟨hd, rfl⟩
    have hwithin := hall d.resource.key
    rw [contentAt_of_some hat] at hwithin
    exact (hb.any_covers_iff (hc.entry d hd)).mpr hwithin

theorem Canonical.beq_iff (ha : a.Canonical) (hb : b.Canonical) :
    (a == b) = true ↔ ∀ key, a.contentAt key = b.contentAt key := by
  change (a.contains b && b.contains a) = true ↔ _
  rw [Bool.and_eq_true, ha.contains_iff hb, hb.contains_iff ha]
  constructor
  · rintro ⟨hba, hab⟩ key
    exact (hab key).antisymm (hba key)
  · intro h
    constructor
    · intro key
      rw [h key]
      exact Content.within_refl _
    · intro key
      rw [h key]
      exact Content.within_refl _

theorem Canonical.mem_of_contentAt_eq (ha : a.Canonical) (hb : b.Canonical)
    (h : ∀ key, a.contentAt key = b.contentAt key) {e : Entry Int} (he : e ∈ a.entries) :
    e ∈ b.entries := by
  have hat := ha.keyed.entryAt?_eq_some_iff.mpr ⟨he, rfl⟩
  have hcontent := h e.resource.key
  rw [contentAt_of_some hat] at hcontent
  cases hbat : b.entryAt? e.resource.key with
  | none =>
    have hnothing := hb.entryAt?_eq_none_iff.mp hbat
    rw [← hcontent] at hnothing
    exact absurd hnothing (ha.entry e he).content_not_isNothing
  | some d =>
    obtain ⟨hd, hkey⟩ := mem_of_entryAt?_eq_some hbat
    rw [contentAt_of_some hbat] at hcontent
    have hde := (ha.entry e he).ext (hb.entry d hd) hkey.symm hcontent
    exact hde ▸ hd

theorem Canonical.contentAt_of_perm (ha : a.Canonical) (hb : b.Canonical)
    (h : a.entries.Perm b.entries) (key : EntryKey Int) :
    a.contentAt key = b.contentAt key := by
  have hat (e : Entry Int) : a.entryAt? key = some e ↔ b.entryAt? key = some e := by
    rw [ha.keyed.entryAt?_eq_some_iff, hb.keyed.entryAt?_eq_some_iff, h.mem_iff]
  rw [contentAt, contentAt, Option.ext hat]

/-- Bundles with the same map differ in the order of their entries at most. -/
theorem Canonical.perm_iff (ha : a.Canonical) (hb : b.Canonical) :
    a.entries.Perm b.entries ↔ ∀ key, a.contentAt key = b.contentAt key := by
  refine ⟨ha.contentAt_of_perm hb, fun h => ?_⟩
  refine (List.perm_ext_iff_of_nodup ha.keyed.of_map hb.keyed.of_map).mpr fun e => ?_
  exact ⟨ha.mem_of_contentAt_eq hb h, hb.mem_of_contentAt_eq ha fun key => (h key).symm⟩

/-! ## Adding and taking away again -/

theorem Canonical.contains_add (hb : b.Canonical) (hc : c.Canonical) :
    (b + c).contains c = true := by
  rw [(hb.add hc).contains_iff hc]
  intro key
  rw [hb.contentAt_add hc]
  exact Content.within_join (hb.zero_within_contentAt key) (alike_contentAt b c key)

theorem Canonical.lower_raise (hb : b.Canonical) (hc : c.Canonical)
    (hapart : ∀ key, (c.contentAt key).Apart (b.contentAt key)) {e : Entry Int}
    (he : e ∈ b.entries) : c.lower (c.raise e) = some e := by
  have hentry := hb.entry e he
  have hraise := hc.raise hentry
  have hback : (c.raise e).content.without (c.contentAt (c.raise e).resource.key) =
      e.content := by
    have hapartAt := hapart e.resource.key
    rw [contentAt_of_some (hb.keyed.entryAt?_eq_some_iff.mpr ⟨he, rfl⟩)] at hapartAt
    rw [key_raise, content_raise]
    exact Content.join_without hentry.zero_within (alike_content_contentAt e c) hapartAt
  cases hlower : c.lower (c.raise e) with
  | none =>
    have hnothing := (hc.lower_eq_none_iff hraise).mp hlower
    rw [hback] at hnothing
    exact absurd hnothing hentry.content_not_isNothing
  | some e' =>
    have hkey := (key_lower hlower).trans (key_raise c e)
    have hcontent := (content_lower hraise hlower).trans hback
    rw [(hc.lower hraise hlower).ext hentry hkey hcontent]

theorem Canonical.lower_self (hc : c.Canonical) {d : Entry Int} (hd : d ∈ c.entries) :
    c.lower d = none := by
  rw [hc.lower_eq_none_iff (hc.entry d hd),
    contentAt_of_some (hc.keyed.entryAt?_eq_some_iff.mpr ⟨hd, rfl⟩)]
  exact Content.isNothing_without_self d.content

/-- The entries that were there come back, in their order, and the others go. -/
theorem Canonical.add_sub (hb : b.Canonical) (hc : c.Canonical)
    (hapart : ∀ key, (c.contentAt key).Apart (b.contentAt key)) : b + c - c = b := by
  have hback : (b.entries.map c.raise).filterMap c.lower = b.entries := by
    rw [List.filterMap_map]
    exact (List.filterMap_congr fun e he => hb.lower_raise hc hapart he).trans List.filterMap_some
  have hgone : (c.entries.filter fun d => (b.entryAt? d.resource.key).isNone).filterMap c.lower =
      [] := by
    rw [List.filterMap_eq_nil_iff]
    exact fun d hd => hc.lower_self (List.mem_filter.mp hd).1
  have hentries : (b + c - c).entries = b.entries := by
    rw [(hb.add hc).keyed.entries_sub hc.keyed, hb.keyed.entries_add hc, List.filterMap_append,
      hback, hgone, List.append_nil]
  exact congrArg Bundle.mk hentries

/-! ## All operations -/

theorem Keyed.pairwise (h : b.Keyed) : b.entries.Pairwise fun d e =>
    d.resource.isMergeable e.resource = false ∧ d.resource ≠ e.resource := by
  refine (List.pairwise_map.mp h).imp fun {d e} hkey => ⟨?_, fun he => hkey (congrArg _ he)⟩
  rw [Bool.eq_false_iff]
  intro hmergeable
  have hshared : e.resource.shared = false := by
    simp only [Resource.isMergeable, Bool.and_eq_true, Bool.not_eq_true'] at hmergeable
    exact hmergeable.1.1.1.1.2
  exact hkey ((Resource.isMergeable_iff hshared).mp hmergeable)

theorem Canonical.exists_mem_iff (h : b.Canonical) :
    (∃ e ∈ b.entries, e.resource.key = key) ↔ ¬(b.contentAt key).IsNothing := by
  rw [← h.entryAt?_eq_none_iff, Bundle.entryAt?_eq_none_iff]
  simp

/-- Bundles that are built from constructed values are maps from keys to contents, and all
operations work key by key. An entry whose content is taken away is dropped. -/
theorem operations_pointwise (ha : a.Assembled) (hb : b.Assembled) :
    (a.entries.Pairwise fun d e =>
      d.resource.isMergeable e.resource = false ∧ d.resource ≠ e.resource) ∧
    (∀ e ∈ a.entries,
      (e.resource.shared = true → ∃ n, e.count = some n ∧ 1 ≤ n) ∧
      (e.resource.shared = false → e.count = none ∧ e.resource.isEmpty = false)) ∧
    (∀ key, (∃ e ∈ a.entries, e.resource.key = key) ↔ ¬(a.contentAt key).IsNothing) ∧
    (∀ key, (a + b).contentAt key = (a.contentAt key).join (b.contentAt key)) ∧
    (∀ key, (a - b).contentAt key = (a.contentAt key).without (b.contentAt key)) ∧
    (∀ key, (∃ e ∈ (a - b).entries, e.resource.key = key) ↔
      ¬((a.contentAt key).without (b.contentAt key)).IsNothing) ∧
    (a.contains b = true ↔ ∀ key, (b.contentAt key).Within (a.contentAt key)) ∧
    ((a == b) = true ↔ ∀ key, a.contentAt key = b.contentAt key) ∧
    ((a == b) = true ↔ a.entries.Perm b.entries) := by
  have hac := ha.canonical
  have hbc := hb.canonical
  have hsub (key : EntryKey Int) := hac.contentAt_sub hbc key
  refine ⟨hac.keyed.pairwise, fun e he => ?_, fun key => hac.exists_mem_iff,
    hac.contentAt_add hbc, hsub, fun key => ?_, hac.contains_iff hbc, hac.beq_iff hbc, ?_⟩
  · have hentry := hac.entry e he
    have hcount := hentry.count_eq
    refine ⟨fun hs => ⟨e.copies, ?_, hentry.copies_pos⟩, fun hs => ⟨?_, hentry.nonempty hs⟩⟩
    · rw [hcount, if_pos hs]
    · rw [hcount, if_neg (Bool.eq_false_iff.mp hs)]
  · rw [← hsub key]
    exact (hac.sub hbc).exists_mem_iff
  · rw [hac.beq_iff hbc, hac.perm_iff hbc]

def ports (first last : UInt64) : Bundle Int :=
  .insert {} ⟨"ports", .ofRanges [⟨first, last⟩], none, false, none⟩

theorem operations_pointwise_ports :
    (ports 1 9 - ports 4 6).Assembled ∧ (ports 7 9 + ports 1 3).Assembled ∧
    (ports 1 9 - ports 4 6 == ports 7 9 + ports 1 3) = true ∧
    (ports 1 9 - ports 4 6).contentAt (.quantity "ports" none none .ranges) =
      (ports 7 9 + ports 1 3).contentAt (.quantity "ports" none none .ranges) := by
  have hports (first last : UInt64) : (ports first last).Assembled := by
    unfold ports Bundle.insert
    exact .putCopies 1 .empty (.ofRanges _)
  have hleft := (hports 1 9).sub (hports 4 6)
  have hright := (hports 7 9).add (hports 1 3)
  have hsame : (ports 1 9 - ports 4 6 == ports 7 9 + ports 1 3) = true := by
    decide +kernel
  obtain ⟨-, -, -, -, -, -, -, hmaps, -⟩ := operations_pointwise hleft hright
  exact ⟨hleft, hright, hsame, hmaps.mp hsame _⟩

end Bundle

end RoleLottery
