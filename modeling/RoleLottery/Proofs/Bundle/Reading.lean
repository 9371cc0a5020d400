import Mathlib.Data.List.Forall2
import RoleLottery.Bundle.Parser
import RoleLottery.Proofs.Text

/-!
# Reading field by field

The fields of a text are those that were joined, without the white space around them. A bundle is
read by reading a resource in each field and collecting them in their order.
-/

namespace RoleLottery.Bundle

/-! ## Fields -/

section

variable {separator c : Char}

theorem trimmedFields_append (separator : Char) (xs ys : List Char) :
    trimmedFields separator (xs ++ separator :: ys) =
      trimmedFields separator xs ++ trimmedFields separator ys := by
  rw [trimmedFields, Text.fields_append_separator, List.map_append, List.filter_append]
  rfl

/-- A text that is a field of its own as it stands. -/
structure IsField (separator : Char) (cs : List Char) : Prop where
  ne_nil : cs ≠ []
  tight : Text.Tight cs
  notMem : separator ∉ cs

theorem IsField.trimmedFields_eq {cs : List Char} (h : IsField separator cs) :
    trimmedFields separator cs = [cs] := by
  simp [trimmedFields, Text.fields_of_notMem h.notMem, h.tight.trim_eq, h.ne_nil]

theorem trimmedFields_cons_of_isBlank (hblank : Text.isBlank c = true) (hc : c ≠ separator)
    (cs : List Char) : trimmedFields separator (c :: cs) = trimmedFields separator cs := by
  have hne := Text.fields_ne_nil separator cs
  unfold trimmedFields
  rw [Text.fields]
  cases hfields : Text.fields separator cs with
  | nil => exact absurd hfields hne
  | cons field rest =>
    dsimp only
    rw [if_neg hc, List.map_cons, List.map_cons, Text.trim_cons_of_isBlank hblank]

theorem trimmedFields_intercalate (hseparator : ' ' ≠ separator) {parts : List (List Char)}
    (h : ∀ part ∈ parts, IsField separator part) :
    trimmedFields separator ([separator, ' '].intercalate parts) = parts := by
  induction parts with
  | nil => rfl
  | cons part parts ih =>
    obtain ⟨hpart, hparts⟩ := List.forall_mem_cons.mp h
    cases parts with
    | nil => rw [List.intercalate_singleton, hpart.trimmedFields_eq]
    | cons next parts =>
      rw [List.intercalate_cons_cons, List.append_assoc, List.cons_append, List.singleton_append,
        trimmedFields_append, trimmedFields_cons_of_isBlank rfl hseparator,
        hpart.trimmedFields_eq, ih hparts]
      rfl

end

/-! ## Resources -/

section

variable {ε β γ : Type} {f : β → γ} {x : Except ε β} {y : γ}

theorem exists_of_map_eq_ok (h : x.map f = .ok y) : ∃ z, x = .ok z ∧ f z = y := by
  cases x with
  | error e => cases h
  | ok z => exact ⟨z, rfl, Except.ok.inj h⟩

theorem mapM_eq_ok_iff {read : β → Except ε γ} {xs : List β} {ys : List γ} :
    xs.mapM read = .ok ys ↔ List.Forall₂ (fun x y => read x = .ok y) xs ys := by
  induction xs generalizing ys with
  | nil => cases ys <;> simp [pure, Except.pure]
  | cons x xs ih =>
    rw [List.mapM_cons]
    cases hx : read x with
    | error e => cases ys <;> simp [bind, Except.bind, hx]
    | ok z =>
      cases hxs : xs.mapM read with
      | error e => cases ys <;> simp [bind, Except.bind, hx, ← ih, hxs]
      | ok zs => cases ys <;> simp [bind, Except.bind, pure, Except.pure, hx, ← ih, hxs]

theorem exists_of_mapM_eq_ok {read : β → Except ε γ} {xs : List β} {ys : List γ}
    (h : xs.mapM read = .ok ys) {x : β} (hx : x ∈ xs) : ∃ y, read x = .ok y := by
  induction mapM_eq_ok_iff.mp h with
  | nil => cases hx
  | cons hread hrest ih =>
    rcases List.mem_cons.mp hx with rfl | hx
    · exact ⟨_, hread⟩
    · exact ih (mapM_eq_ok_iff.mpr hrest) hx

theorem exists_of_mem_mapM {read : β → Except ε γ} {xs : List β} {ys : List γ}
    (h : xs.mapM read = .ok ys) (hy : y ∈ ys) : ∃ x ∈ xs, read x = .ok y := by
  induction mapM_eq_ok_iff.mp h with
  | nil => cases hy
  | cons hx hrest ih =>
    rcases List.mem_cons.mp hy with rfl | hy
    · exact ⟨_, List.mem_cons_self, hx⟩
    · obtain ⟨x, hmem, hread⟩ := ih (mapM_eq_ok_iff.mpr hrest) hy
      exact ⟨x, List.mem_cons_of_mem _ hmem, hread⟩

end

variable {α : Type} [Amount α] [DecimalText α] {field : List Char} {r : Resource α}

theorem parseEntry_eq_ok_iff : parseEntry field = .ok r ↔ ∃ key value name role v,
    Text.cut? ':' field = some (key, value) ∧ parseKey? (Text.trim key) = some (name, role) ∧
      name ≠ [] ∧ Text.trim value ≠ [] ∧
      parseValue field (String.ofList name) (Text.trim value) = .ok v ∧
      r = ⟨String.ofList name, v, role.map String.ofList, false, none⟩ := by
  unfold parseEntry
  dsimp only
  constructor
  · intro h
    split at h
    · cases h
    · rename_i key value hcut
      split at h
      · cases h
      · rename_i name role hkey
        split at h
        · cases h
        · rename_i hempty
          simp only [Bool.or_eq_true, List.isEmpty_iff, not_or] at hempty
          obtain ⟨v, hv, hr⟩ := exists_of_map_eq_ok h
          exact ⟨key, value, name, role, v, hcut, hkey, hempty.1, hempty.2, hv, hr.symm⟩
  · rintro ⟨key, value, name, role, v, hcut, hkey, hname, hvalue, hv, rfl⟩
    simp [hcut, hkey, hname, hvalue, hv, Except.map]

/-- The resources of a text, one for each field, or the first fault. -/
def resourcesOf (text : String) : Except BundleFault (List (Resource α)) :=
  (trimmedFields ';' text.toList).mapM parseEntry

theorem parseInto_eq (b : Bundle α) (fields : List (List Char)) :
    b.parseInto fields = (fields.mapM parseEntry).map (·.foldl insert b) := by
  induction fields generalizing b with
  | nil => rfl
  | cons field fields ih =>
    rw [parseInto, List.mapM_cons]
    cases parseEntry (α := α) field with
    | error fault => rfl
    | ok r =>
      dsimp only
      rw [ih]
      cases fields.mapM (parseEntry (α := α)) <;> rfl

theorem parse_eq (text : String) :
    (parse text : Except BundleFault (Bundle α)) = (resourcesOf text).map ofList :=
  parseInto_eq empty _

end RoleLottery.Bundle
