import RoleLottery.Proofs.Bundle.Keys
import RoleLottery.Proofs.Bundle.Summed

/-!
# Scalar totals of bundles

What adding and taking bundles do to the exact amounts of a name. A quantity counts in full. A
shared instance counts once: when its first copy comes, and when its last copy goes.
-/

namespace RoleLottery

/-- What a resource adds to the amount of a name. -/
def Resource.amountOf (r : Resource Int) (name : String) : Int :=
  if r.name = name then r.value.amountOrZero else 0

namespace Bundle

variable {b c : Bundle Int} {r : Resource Int} {copies : Nat} {key : EntryKey Int} {name : String}
  {es : List (Entry Int)}

/-- The amount of a name in a list of entries. -/
def amountIn (es : List (Entry Int)) (name : String) : Int :=
  (es.map fun e => e.resource.amountOf name).sum

theorem amountIn_append (es fs : List (Entry Int)) (name : String) :
    amountIn (es ++ fs) name = amountIn es name + amountIn fs name := by
  rw [amountIn, List.map_append, List.sum_append]
  rfl

theorem sum_amountsOf (b : Bundle Int) (name : String) :
    (b.amountsOf name).sum = amountIn b.entries name := by
  have hsum (rs : List (Resource Int)) :
      ((rs.filter (·.name == name)).filterMap (·.value.amount?)).sum =
        (rs.map (·.amountOf name)).sum := by
    induction rs with
    | nil => rfl
    | cons r rs ih =>
      rw [List.map_cons, List.sum_cons, ← ih, Resource.amountOf]
      by_cases hname : r.name = name
      · cases hamount : r.value.amount? with
        | none => simp [hname, Value.amountOrZero, hamount]
        | some a => simp [hname, Value.amountOrZero, hamount]
      · simp [hname]
  rw [amountsOf, hsum, resources, List.map_map]
  rfl

theorem scalarTotal_eq (b : Bundle Int) (name : String) :
    b.scalarTotal name = amountIn b.entries name := by
  have hfold (as : List Int) (acc : Int) : as.foldl Amount.add acc = acc + as.sum := by
    induction as generalizing acc with
    | nil => simp
    | cons a as ih =>
      rw [List.foldl_cons, ih, List.sum_cons]
      change acc + a + as.sum = acc + (a + as.sum)
      omega
  have htotal := hfold (b.amountsOf name) 0
  rw [sum_amountsOf, Int.zero_add] at htotal
  exact htotal

theorem amountOf_nonneg (h : r.value.Regular) (name : String) : 0 ≤ r.amountOf name := by
  have hnonneg := h.amountOrZero_nonneg
  unfold Resource.amountOf
  split <;> omega

theorem Normal.scalarTotal_nonneg (h : b.Normal) (name : String) : 0 ≤ b.scalarTotal name := by
  rw [scalarTotal_eq]
  apply List.sum_nonneg
  intro a ha
  obtain ⟨e, he, rfl⟩ := List.mem_map.mp ha
  exact amountOf_nonneg (h.entry e he).regular name

theorem Updates.scalarTotal {e? : Option (Entry Int)} {b' : Bundle Int} (u : Updates b key e? b')
    (name : String) : b'.scalarTotal name + amountIn (b.entryAt? key).toList name =
      b.scalarTotal name + amountIn e?.toList name := by
  obtain ⟨before, after, hold, hnew, -⟩ := u
  generalize b.entryAt? key = d? at hold ⊢
  rw [scalarTotal_eq, scalarTotal_eq, hold, hnew]
  simp only [amountIn_append]
  omega

/-! ## One resource -/

theorem amountIn_moreAt {e? : Option (Entry Int)} (he : ∀ e ∈ e?, e.resource.key = r.key) :
    amountIn (moreAt e? r copies).toList name = amountIn e?.toList name +
      if r.shared && e?.isSome then 0 else r.amountOf name := by
  cases e? with
  | none => simp [moreAt, amountIn, Entry.single]
  | some e =>
    cases hr : r.shared with
    | true => simp [moreAt, amountIn, Entry.joined, hr]
    | false =>
      obtain ⟨hname, hkind⟩ := Resource.quantity_of_key_eq hr (he e rfl)
      have hmerge := Value.amountOrZero_merge hkind
      by_cases hn : r.name = name <;>
        simp [moreAt, amountIn, Entry.joined, hr, Resource.amountOf, hname, hmerge, hn]

theorem amountIn_lessAt {e? : Option (Entry Int)}
    (he : ∀ e ∈ e?, e.resource.key = r.key ∧ e.Normal)
    (hcovers : e?.any (·.covers r copies) = true) (name : String) :
    amountIn (lessAt e? r copies).toList name +
        (if r.shared && (lessAt e? r copies).isSome then 0 else r.amountOf name) =
      amountIn e?.toList name := by
  cases e? with
  | none => simp at hcovers
  | some e =>
    obtain ⟨hkey, hnormal⟩ := he e rfl
    rw [Option.any_some] at hcovers
    cases hr : r.shared with
    | true =>
      have heq := Resource.eq_of_shared hr hkey
      by_cases hlast : e.copies ≤ copies
      · simp [lessAt, amountIn, Entry.reduced?, hr, hlast, heq]
      · simp [lessAt, amountIn, Entry.reduced?, hr, hlast]
    | false =>
      obtain ⟨hname, hkind⟩ := Resource.quantity_of_key_eq hr hkey
      have hcontains : e.resource.value.contains r.value = true := by
        simpa [Entry.covers, hr] using hcovers
      have hremove := Value.amountOrZero_remove hkind hcontains
      have hleft : amountIn (lessAt (some e) r copies).toList name =
          if r.name = name then (e.resource.value.remove r.value).amountOrZero else 0 := by
        cases hempty : (e.resource.value.remove r.value).isEmpty with
        | true =>
          have hzero := (hnormal.regular.remove r.value).amountOrZero_of_isEmpty hempty
          simp [lessAt, amountIn, Entry.reduced?, hr, Resource.isEmpty, hempty, hzero]
        | false =>
          simp [lessAt, amountIn, Entry.reduced?, hr, Resource.isEmpty, hempty, Resource.amountOf,
            hname]
      rw [hleft]
      by_cases hn : r.name = name <;> simp [amountIn, Resource.amountOf, hname, hn, hremove]

/-- The resource is shared and the bundle has a copy of it. -/
def hasCopy (b : Bundle Int) (r : Resource Int) : Bool := r.shared && b.holds r 1

theorem Normal.hasCopy_eq (h : b.Normal) (r : Resource Int) :
    b.hasCopy r = (r.shared && (b.entryAt? r.key).isSome) := by
  unfold hasCopy
  cases hr : r.shared with
  | false => rfl
  | true =>
    rw [Bool.true_and, Bool.true_and, h.keyed.holds_eq Nat.one_ne_zero (by simp [hr])]
    cases he : b.entryAt? r.key with
    | none => rfl
    | some e =>
      have hpos := (h.entry e (mem_of_entryAt?_eq_some he).1).copies_pos
      simpa [Entry.covers, hr] using Nat.succ_le_of_lt hpos

/-- A shared instance counts when its first copy comes. -/
theorem Normal.scalarTotal_putCopies (h : b.Normal) (hcopies : copies ≠ 0)
    (hempty : r.shared = false → r.isEmpty = false) (name : String) :
    (b.putCopies r copies).scalarTotal name =
      b.scalarTotal name + if b.hasCopy r then 0 else r.amountOf name := by
  have hupdate := (updates_putCopies b hcopies hempty).scalarTotal name
  rw [amountIn_moreAt fun e he => (mem_of_entryAt?_eq_some he).2] at hupdate
  rw [h.hasCopy_eq]
  omega

/-- A shared instance counts until its last copy goes. -/
theorem Normal.scalarTotal_takeCopies (h : b.Normal)
    (hcovers : (b.entryAt? r.key).any (·.covers r copies) = true) (name : String) :
    (b.takeCopies r copies).scalarTotal name +
        (if (b.takeCopies r copies).hasCopy r then 0 else r.amountOf name) =
      b.scalarTotal name := by
  have hupdates := updates_takeCopies b r copies
  have hself := hupdates.entryAt?_self h.keyed key_lessAt
  have htotal := hupdates.scalarTotal name
  have hentry : ∀ e ∈ b.entryAt? r.key, e.resource.key = r.key ∧ e.Normal := fun e he =>
    ⟨(mem_of_entryAt?_eq_some he).2, h.entry e (mem_of_entryAt?_eq_some he).1⟩
  have hless := amountIn_lessAt hentry hcovers name
  rw [(h.takeCopies r copies).hasCopy_eq, hself]
  omega

/-! ## Whole bundles -/

theorem Normal.scalarTotal_foldl_putCopies (h : b.Normal)
    (hkeys : (es.map (·.resource.key)).Nodup) (hes : ∀ e ∈ es, e.Normal) (name : String) :
    (es.foldl (fun acc e => acc.putCopies e.resource e.copies) b).scalarTotal name =
      b.scalarTotal name + amountIn (es.filter fun e => !b.hasCopy e.resource) name := by
  induction es generalizing b with
  | nil => simp [amountIn]
  | cons e es ih =>
    obtain ⟨he, hes⟩ := List.forall_mem_cons.mp hes
    obtain ⟨hnew, hkeys⟩ := List.nodup_cons.mp hkeys
    have hnext := h.putCopies he.regular e.copies
    have hupdates := updates_putCopies b (Nat.ne_of_gt he.copies_pos) he.nonempty
    have hsame : (es.filter fun d => !(b.putCopies e.resource e.copies).hasCopy d.resource) =
        es.filter fun d => !b.hasCopy d.resource := by
      apply List.filter_congr
      intro d hd
      have hne : d.resource.key ≠ e.resource.key := fun hkey =>
        hnew (List.mem_map.mpr ⟨d, hd, hkey⟩)
      rw [hnext.hasCopy_eq, h.hasCopy_eq, hupdates.entryAt?_ne key_moreAt hne]
    have hhead := h.scalarTotal_putCopies (Nat.ne_of_gt he.copies_pos) he.nonempty name
    rw [List.foldl_cons, ih hnext hkeys hes, hsame, hhead, List.filter_cons]
    cases b.hasCopy e.resource with
    | true => simp
    | false =>
      simp [amountIn]
      omega

theorem Normal.scalarTotal_add (h : b.Normal) (hc : c.Normal) (name : String) :
    (b + c).scalarTotal name = b.scalarTotal name +
      amountIn (c.entries.filter fun e => !b.hasCopy e.resource) name :=
  h.scalarTotal_foldl_putCopies hc.keyed hc.entry name

theorem Normal.scalarTotal_foldl_takeCopies (h : b.Normal)
    (hkeys : (es.map (·.resource.key)).Nodup) (hes : ∀ e ∈ es, e.Normal)
    (hcontains : b.containsAll es = true) (name : String) :
    let left := es.foldl (fun acc e => acc.takeCopies e.resource e.copies) b
    left.scalarTotal name + amountIn (es.filter fun e => !left.hasCopy e.resource) name =
      b.scalarTotal name := by
  induction es generalizing b with
  | nil => simp [amountIn]
  | cons e es ih =>
    obtain ⟨he, hes⟩ := List.forall_mem_cons.mp hes
    obtain ⟨hnew, hkeys⟩ := List.nodup_cons.mp hkeys
    obtain ⟨hholds, hcontains⟩ := Bool.and_eq_true_iff.mp hcontains
    rw [h.keyed.holds_eq (Nat.ne_of_gt he.copies_pos) he.nonempty] at hholds
    have hhead := h.scalarTotal_takeCopies hholds name
    have hnext := h.takeCopies e.resource e.copies
    have htail := ih hnext hkeys hes hcontains
    -- The rest has other keys, so what is left of this entry stays.
    have hothers : ∀ d ∈ es, d.resource.key ≠ e.resource.key := fun d hd hkey =>
      hnew (List.mem_map.mpr ⟨d, hd, hkey⟩)
    have hsame := entryAt?_foldl_takeCopies (b.takeCopies e.resource e.copies) hothers
    rw [hnext.hasCopy_eq, ← hsame, ← (hnext.foldl_takeCopies es).hasCopy_eq] at hhead
    dsimp only at htail ⊢
    rw [List.foldl_cons, List.filter_cons]
    generalize List.foldl _ _ es = left at *
    cases hcopy : left.hasCopy e.resource with
    | true => simp_all
    | false =>
      simp [hcopy, amountIn] at *
      omega

theorem Normal.scalarTotal_sub (h : b.Normal) (hc : c.Normal) (hcontains : b.contains c = true)
    (name : String) :
    (b - c).scalarTotal name +
        amountIn (c.entries.filter fun e => !(b - c).hasCopy e.resource) name =
      b.scalarTotal name :=
  h.scalarTotal_foldl_takeCopies hc.keyed hc.entry hcontains name

/-! ## Parts -/

theorem amountIn_filter_le (hes : ∀ e ∈ es, e.resource.value.Regular) (p : Entry Int → Bool)
    (name : String) : amountIn (es.filter p) name ≤ amountIn es name := by
  induction es with
  | nil => exact Int.le_refl 0
  | cons e es ih =>
    obtain ⟨he, hes⟩ := List.forall_mem_cons.mp hes
    have hnonneg := amountOf_nonneg he name
    have hrest := ih hes
    cases hp : p e <;> simp [amountIn, hp] at hrest ⊢ <;> omega

def NoSharedScalar (b : Bundle Int) : Prop :=
  ∀ r ∈ b.resources, r.shared = true → r.value.isScalar = false

theorem NoSharedScalar.amountIn_filter_hasCopy (h : c.NoSharedScalar) (b : Bundle Int)
    (name : String) :
    amountIn (c.entries.filter fun e => !b.hasCopy e.resource) name = c.scalarTotal name := by
  rw [scalarTotal_eq]
  have hes : ∀ e ∈ c.entries, e.resource.shared = true → e.resource.value.isScalar = false :=
    fun e he => h e.resource (List.mem_map.mpr ⟨e, he, rfl⟩)
  generalize c.entries = es at hes ⊢
  induction es with
  | nil => rfl
  | cons e es ih =>
    obtain ⟨he, hes⟩ := List.forall_mem_cons.mp hes
    have hrest := ih hes
    have hcopy (hb : b.hasCopy e.resource = true) : e.resource.amountOf name = 0 := by
      have hscalar := he (Bool.and_eq_true_iff.mp hb).1
      cases hvalue : e.resource.value <;>
        simp_all [Value.isScalar, Resource.amountOf, Value.amountOrZero, Value.amount?]
    cases hb : b.hasCopy e.resource with
    | true => simpa [amountIn, hb, hcopy hb] using hrest
    | false => simpa [amountIn, hb] using hrest

theorem Normal.shared (h : b.Normal) : b.shared.Normal := h.filter _

theorem Normal.unshared (h : b.Normal) : b.unshared.Normal := h.filter _

theorem Normal.nodup_resources (h : b.Normal) : b.resources.Nodup := by
  have hkeys : (b.resources.map Resource.key).Nodup := by
    rw [resources, List.map_map]
    exact h.keyed
  exact hkeys.of_map

theorem Normal.hasCopy_unshared (h : b.Normal) (r : Resource Int) :
    b.unshared.hasCopy r = false := by
  rw [h.unshared.hasCopy_eq]
  cases hr : r.shared with
  | false => rfl
  | true =>
    cases he : b.unshared.entryAt? r.key with
    | none => rfl
    | some e =>
      obtain ⟨hmem, hkey⟩ := mem_of_entryAt?_eq_some he
      have hshared := Resource.shared_eq_of_key_eq hkey
      have hunshared := (List.mem_filter.mp hmem).2
      simp [hshared, hr] at hunshared

theorem amountIn_filter_add (es : List (Entry Int)) (p : Entry Int → Bool) (name : String) :
    amountIn (es.filter p) name + amountIn (es.filter (!p ·)) name = amountIn es name := by
  have hperm := (List.filter_append_perm p es).map (·.resource.amountOf name)
  rw [← amountIn_append]
  exact hperm.sum_eq

theorem amountIn_parts (es : List (Entry Int)) (p : Resource Int → Bool) (name : String) :
    amountIn (es.filter (!·.resource.shared)) name +
        amountIn ((es.filter (·.resource.shared)).filter fun e => p e.resource) name =
      amountIn (es.filter fun e => !e.resource.shared || p e.resource) name := by
  induction es with
  | nil => rfl
  | cons e es ih =>
    cases hshared : e.resource.shared <;> cases hp : p e.resource <;>
      simp [amountIn, hshared, hp] at ih ⊢ <;> omega

theorem scalarTotal_unshared_shared (b : Bundle Int) (name : String) :
    b.unshared.scalarTotal name + b.shared.scalarTotal name = b.scalarTotal name := by
  rw [scalarTotal_eq, scalarTotal_eq, scalarTotal_eq, Int.add_comm]
  exact amountIn_filter_add b.entries (·.resource.shared) name

theorem Normal.scalarTotal_unshared_add (h : b.Normal) (p : Resource Int → Bool) (name : String) :
    (b.unshared + b.shared.filter p).scalarTotal name =
      amountIn (b.entries.filter fun e => !e.resource.shared || p e.resource) name := by
  have hall : (b.shared.filter p).entries.filter
      (fun e => !b.unshared.hasCopy e.resource) = (b.shared.filter p).entries := by
    simp [h.hasCopy_unshared]
  rw [h.unshared.scalarTotal_add (h.shared.filter p), hall, scalarTotal_eq]
  exact amountIn_parts b.entries p name

end Bundle

/-! ## Summaries -/

namespace Quantities

variable {b : Bundle Int}

theorem positive_ofBundle (b : Bundle Int) : (ofBundle b).Positive := by
  rw [ofBundle_eq_ofList]
  exact positive_empty.foldl_deposit _

theorem get_ofBundle (h : b.Normal) (name : String) :
    (ofBundle b).get name = b.scalarTotal name := by
  refine get_ofBundle_of_nonneg fun a ha => ?_
  obtain ⟨r, hr, hamount⟩ := List.mem_filterMap.mp ha
  obtain ⟨e, he, rfl⟩ := List.mem_map.mp (List.mem_filter.mp hr).1
  have hregular := (h.entry e he).regular.amountOrZero_nonneg
  rwa [Value.amountOrZero, hamount] at hregular

theorem get_ofBundle_scalars (h : b.Normal) (name : String) :
    (ofBundle b.scalars).get name = b.scalarTotal name := by
  rw [ofBundle_scalars, get_ofBundle h]

theorem get_ofBundle_missing (h : b.Normal) (c : Bundle Int) (name : String) :
    (ofBundle (b.unshared + b.shared.filter fun r => !c.holds r 1).scalars).get name =
      Bundle.amountIn (b.entries.filter fun e => !c.hasCopy e.resource) name := by
  rw [get_ofBundle_scalars (h.unshared.add (h.shared.filter _)), h.scalarTotal_unshared_add]
  simp only [Bundle.hasCopy, Bool.not_and]

end Quantities

end RoleLottery
