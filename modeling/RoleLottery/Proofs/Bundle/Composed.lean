import RoleLottery.Proofs.Bundle.Emptied
import RoleLottery.Proofs.Bundle.Reading
import RoleLottery.Proofs.Content

/-!
# Bundles of constructed values

The bundles that can be made when constructed values alone are put in and taken away. Their
quantities have content, and their ranges are in canonical form.
-/

namespace RoleLottery

/-! ## Values -/

namespace Value

variable {α : Type} {v : Value α}

theorem Canonical.upright (h : v.Canonical) : v.Upright := by
  cases v with
  | scalar a => trivial
  | ranges is => exact h.proper
  | set s => trivial

end Value

/-! ## Bundles -/

namespace Bundle

variable {α : Type} [Amount α] {Admitted : Resource α → Prop}

theorem Composed.made {b : Bundle α} (h : b.Composed Admitted) : b.Made Admitted := by
  induction h with
  | empty => exact .empty
  | putCopies copies _ hr ih => exact ih.putCopies copies hr
  | takeCopies copies _ _ ih => exact ih.takeCopies _ copies
  | add _ _ ihb ihc => exact ihb.add ihc
  | sub _ _ ihb _ => exact ihb.sub _
  | filter p _ ih => exact ih.filter p

section

variable [DecimalText α] {entry cs : List Char} {name text : String} {v : Value α}
  {rs : List (Resource α)} {b : Bundle α}

theorem constructed_of_parseValue (h : parseValue entry name cs = .ok v) : v.Constructed := by
  unfold parseValue at h
  split at h
  · split at h
    · cases h
    · obtain ⟨is, -, rfl⟩ := exists_of_map_eq_ok h
      exact .ofRanges is
  · split at h
    · cases h
    · cases h
      exact .ofLabels _
  · split at h
    · cases h
    · rename_i a _
      split at h
      · cases h
        exact .ofAmount a
      · cases h

theorem constructed_of_resourcesOf (h : resourcesOf text = .ok rs) :
    ∀ r ∈ rs, r.value.Constructed := by
  intro r hr
  obtain ⟨field, -, hread⟩ := exists_of_mem_mapM h hr
  obtain ⟨key, value, name, role, v, -, -, -, -, hvalue, rfl⟩ := parseEntry_eq_ok_iff.mp hread
  exact constructed_of_parseValue hvalue

/-- What a text is read as is made of constructed values. -/
theorem composed_of_parse (h : parse text = .ok b) : b.Composed fun r => r.value.Constructed := by
  rw [parse_eq] at h
  obtain ⟨rs, hrs, rfl⟩ := exists_of_map_eq_ok h
  exact composed_ofList (constructed_of_resourcesOf hrs)

end

/-- A quantity has content, and its ranges are in canonical form. -/
def Settled (r : Resource Float) : Prop :=
  r.shared = false → r.value.Canonical ∧ r.isEmpty = false

variable {b : Bundle Float} {r s : Resource Float}

theorem Settled.merge (hs : Settled s) (hr : Settled r) (hshared : s.shared = false)
    (hkey : s.key = r.key) : Settled { s with value := s.value.merge r.value } := by
  intro _
  obtain ⟨hcanonical, hcontent⟩ := hs hshared
  have hrshared := (Resource.shared_eq_of_key_eq hkey).symm.trans hshared
  have hkind := (Resource.quantity_of_key_eq hrshared hkey).2
  exact ⟨hcanonical.merge _, hcanonical.upright.isEmpty_merge hkind hcontent (hr hrshared).2⟩

theorem Settled.remove (hs : Settled s) (hr : r.value.Canonical) (hshared : s.shared = false)
    (hcontent : Resource.isEmpty { s with value := s.value.remove r.value } = false) :
    Settled { s with value := s.value.remove r.value } := fun _ =>
  ⟨(hs hshared).1.remove hr, hcontent⟩

theorem Composed.settled (h : b.Composed fun r => r.value.Constructed) : b.All Settled := by
  induction h with
  | empty => exact fun _ he => absurd he List.not_mem_nil
  | putCopies copies _ hr ih =>
    exact ih.putCopies (fun hcontent hshared => ⟨hr.canonical, hcontent hshared⟩)
      (fun _ => Settled.merge) copies
  | takeCopies copies _ hr ih =>
    exact ih.takeCopies (fun _ hs hshared _ => hs.remove hr.canonical hshared) copies
  | @add _ c _ _ ihb ihc =>
    exact List.foldlRecOn (motive := All Settled) c.entries _ ihb fun _ hacc e he =>
      hacc.putCopies (fun _ => ihc e he) (fun _ => Settled.merge) _
  | @sub _ c _ _ ihb ihc =>
    exact List.foldlRecOn (motive := All Settled) c.entries _ ihb fun _ hacc e he =>
      hacc.takeCopies (fun _ hs hshared hr => hs.remove (ihc e he hr).1 hshared) _
  | filter p _ ih => exact fun e he => ih e (List.mem_filter.mp he).1

/-- A text is read as quantities that have content. -/
theorem nonempty_of_parse {text : String} (h : parse text = .ok b) :
    ∀ e ∈ b.entries, e.resource.shared = false → e.resource.isEmpty = false :=
  fun e he hshared => ((composed_of_parse h).settled e he hshared).2

end Bundle

end RoleLottery
