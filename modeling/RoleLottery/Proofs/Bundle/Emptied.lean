import RoleLottery.Proofs.Binary64.Rounding
import RoleLottery.Proofs.Bundle.Made

/-!
# Quantities without content

A quantity that is put in has content, and merging and removing leave it some, as long as no range
is inverted. Inverted ranges can be put in, since a list of them is not empty, but no merge keeps
them. So what is merged from nothing else is stored as an empty list of ranges.
-/

namespace RoleLottery

/-! ## Values -/

namespace Value

variable {α : Type} {v w : Value α}

def Upright : Value α → Prop
  | .ranges is => ∀ i ∈ is, i.Proper
  | _ => True

theorem exists_inverted_of_not_upright (h : ¬v.Upright) :
    ∃ is, v = .ranges is ∧ ∃ i ∈ is, i.last < i.first := by
  cases v with
  | scalar a => exact absurd trivial h
  | ranges is => simpa [Upright, Interval.Proper] using h
  | set s => exact absurd trivial h

theorem Upright.merge [Amount α] (hv : v.Upright) (w : Value α) : (v.merge w).Upright := by
  cases v with
  | scalar a => cases w <;> trivial
  | ranges is =>
    cases w with
    | ranges js => exact Interval.proper_canonicalize _
    | scalar b => exact hv
    | set t => exact hv
  | set s => cases w <;> trivial

theorem Upright.remove [Amount α] (hv : v.Upright) (w : Value α) : (v.remove w).Upright := by
  cases v with
  | scalar a => cases w <;> trivial
  | ranges is =>
    cases w with
    | ranges js =>
      refine List.foldlRecOn (motive := fun acc : List Interval => ∀ i ∈ acc, i.Proper) js _ hv ?_
      exact fun acc hacc cut _ => Interval.proper_cutOut hacc cut
    | scalar b => exact hv
    | set t => exact hv
  | set s => cases w <;> trivial

theorem Upright.isEmpty_merge {v w : Value Float} (hupright : v.Upright)
    (hkind : v.kind = w.kind) (hv : v.isEmpty = false) (hw : w.isEmpty = false) :
    (v.merge w).isEmpty = false := by
  cases v with
  | scalar a =>
    cases w with
    | scalar b =>
      simp only [Value.merge, isEmpty, decide_eq_false_iff_not, not_le] at hv hw ⊢
      exact Binary64.thousandths_plus_pos hv hw
    | ranges js => cases hkind
    | set t => cases hkind
  | ranges is =>
    cases w with
    | scalar b => cases hkind
    | ranges js =>
      simp only [isEmpty, List.isEmpty_eq_false_iff] at hv
      obtain ⟨i, hi⟩ := List.exists_mem_of_ne_nil is hv
      have hne := Interval.canonicalize_ne_nil (List.mem_append_left js hi) (hupright i hi)
      simpa [Value.merge, isEmpty] using hne
    | set t => cases hkind
  | set s =>
    cases w with
    | scalar b => cases hkind
    | ranges js => cases hkind
    | set t =>
      simp only [isEmpty, Labels.isEmpty, List.isEmpty_eq_false_iff] at hv
      obtain ⟨label, hlabel⟩ := List.exists_mem_of_ne_nil s.items hv
      have hmem : label ∈ (s.union t).items := Labels.mem_union.mpr (.inl hlabel)
      simpa [Value.merge, isEmpty, Labels.isEmpty] using List.ne_nil_of_mem hmem

end Value

/-! ## Bundles -/

namespace Bundle

variable {Admitted : Resource Float → Prop} {b : Bundle Float}

/-- If no range that is put in under the key of a quantity is inverted, then neither is any of the
quantity, and it has content. -/
def HasContent (Admitted : Resource Float → Prop) (r : Resource Float) : Prop :=
  r.shared = false → (∀ s, Admitted s → s.key = r.key → s.value.Upright) →
    r.value.Upright ∧ r.isEmpty = false

theorem keeps_hasContent : Keeps (HasContent Admitted) where
  merge := by
    intro s r hs hr hshared hkey _ hadmitted
    have hkind := Value.kind_merge s.value r.value
    rw [Resource.key_setValue hshared hkind] at hadmitted
    obtain ⟨hupright, hcontent⟩ := hs hshared hadmitted
    rw [hkey] at hadmitted
    have hrshared := (Resource.shared_eq_of_key_eq hkey).symm.trans hshared
    exact ⟨hupright.merge _, hupright.isEmpty_merge
      (Resource.quantity_of_key_eq hrshared hkey).2 hcontent (hr hrshared hadmitted).2⟩
  remove := by
    intro s r hs hshared hcontent _ hadmitted
    have hkind := Value.kind_remove s.value r.value
    rw [Resource.key_setValue hshared hkind] at hadmitted
    exact ⟨(hs hshared hadmitted).1.remove _, hcontent⟩

theorem Made.exists_inverted (h : b.Made Admitted) {e : Entry Float} (he : e ∈ b.entries)
    (hshared : e.resource.shared = false) (hempty : e.resource.isEmpty = true) :
    ∃ r is, Admitted r ∧ r.key = e.resource.key ∧ r.value = .ranges is ∧
      ∃ i ∈ is, i.last < i.first := by
  have hall : b.All (HasContent Admitted) := by
    apply h.all keeps_hasContent
    intro r hr hcontent hshared hadmitted
    exact ⟨hadmitted r hr rfl, hcontent hshared⟩
  by_contra hnone
  have hupright : ∀ s, Admitted s → s.key = e.resource.key → s.value.Upright := by
    intro s hs hkey
    by_contra hinverted
    obtain ⟨is, hvalue, hi⟩ := Value.exists_inverted_of_not_upright hinverted
    exact hnone ⟨s, is, hs, hkey, hvalue, hi⟩
  simp [(hall e he hshared hupright).2] at hempty

/-- An empty quantity has been merged from inverted ranges, and nothing comes of resources without
content. -/
theorem empty_by_inverted_ranges (h : b.Made Admitted) :
    (∀ e ∈ b.entries, e.resource.shared = false → e.resource.isEmpty = true →
      ∃ r is, Admitted r ∧ r.key = e.resource.key ∧ r.value = .ranges is ∧
        ∃ i ∈ is, i.last < i.first) ∧
    ((∀ r, Admitted r → r.shared = false ∧ r.isEmpty = true) → b.isEmpty = true) :=
  ⟨fun _ he hshared hempty => h.exists_inverted he hshared hempty, h.isEmpty⟩

def invertedPorts : Resource Float := ⟨"ports", .ranges [⟨5, 1⟩], none, false, none⟩

theorem empty_by_inverted_ranges_twice :
    (ofList [invertedPorts, invertedPorts]).Made (· = invertedPorts) ∧
    (⟨{ invertedPorts with value := .ranges [] }, none⟩ : Entry Float) ∈
      (ofList [invertedPorts, invertedPorts]).entries ∧
    ∃ r is, r = invertedPorts ∧ r.key = invertedPorts.key ∧ r.value = .ranges is ∧
      ∃ i ∈ is, i.last < i.first := by
  have hmade : (ofList [invertedPorts, invertedPorts]).Made (· = invertedPorts) :=
    made_ofList (by simp)
  have hentries : (ofList [invertedPorts, invertedPorts]).entries =
      [⟨{ invertedPorts with value := .ranges [] }, none⟩] := by rfl
  have hmem : (⟨{ invertedPorts with value := .ranges [] }, none⟩ : Entry Float) ∈
      (ofList [invertedPorts, invertedPorts]).entries := by simp [hentries]
  exact ⟨hmade, hmem, (empty_by_inverted_ranges hmade).1 _ hmem rfl rfl⟩

def invertedPortsText : String :=
  "[\x7b\"resource\":\x7b\"name\":\"ports\",\"value\":\x7b\"ranges\":[[5,1]]\x7d\x7d\x7d," ++
    "\x7b\"resource\":\x7b\"name\":\"ports\",\"value\":\x7b\"ranges\":[[5,1]]\x7d\x7d\x7d]"

/-- An empty quantity that is read comes of inverted ranges in the text. -/
theorem exists_inverted_of_ofJsonText? {text : String} (hb : ofJsonText? text = some b)
    {e : Entry Float} (he : e ∈ b.entries) (hshared : e.resource.shared = false)
    (hempty : e.resource.isEmpty = true) :
    ∃ j es, Json.parse? text = some j ∧ j.list? Entry.ofJson? = some es ∧
      ∃ d ∈ es, d.resource.key = e.resource.key ∧
        ∃ is, d.resource.value = .ranges is ∧ ∃ i ∈ is, i.last < i.first := by
  have hmade : b.Made fun r => ∃ j es, Json.parse? text = some j ∧
      j.list? (Entry.ofJson? (α := Float)) = some es ∧ ∃ d ∈ es, d.resource = r :=
    made_of_ofJsonText? (fun j es hj hes d hd => ⟨j, es, hj, hes, d, hd, rfl⟩) hb
  obtain ⟨r, is, ⟨j, es, hj, hes, d, hd, rfl⟩, hkey, hvalue, hi⟩ :=
    hmade.exists_inverted he hshared hempty
  exact ⟨j, es, hj, hes, d, hd, hkey, is, hvalue, hi⟩

theorem empty_quantity_stored : ∃ b : Bundle Float, ofJsonText? invertedPortsText = some b ∧
    ∃ e ∈ b.entries, e.resource.shared = false ∧ e.resource.isEmpty = true := by
  have hstored : (ofJsonText? invertedPortsText : Option (Bundle Float)).any
      (·.entries.any fun e => !e.resource.shared && e.resource.isEmpty) = true := by
    decide +kernel
  obtain ⟨b, hb, hany⟩ := (Option.any_eq_true _ _).mp hstored
  obtain ⟨e, he, hempty⟩ := List.any_eq_true.mp hany
  exact ⟨b, hb, e, he, by simpa using hempty⟩

end Bundle

end RoleLottery
