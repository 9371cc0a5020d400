import Mathlib.Data.List.Basic
import RoleLottery.Text.Blank
import RoleLottery.Text.Fields

/-!
# Dividing texts

A text is divided at its separators into fields that do not have the separator, and joined fields
are divided again. What stands around the first separator comes back when it is cut there, and a
text without white space at its ends is not changed by trimming.
-/

namespace RoleLottery.Text

/-! ## Fields -/

theorem fields_ne_nil (separator : Char) (cs : List Char) : fields separator cs ≠ [] := by
  cases cs with
  | nil => simp [fields]
  | cons c cs =>
    simp only [fields]
    split
    · simp
    · split <;> simp

theorem fields_cons_separator (separator : Char) (cs : List Char) :
    fields separator (separator :: cs) = [] :: fields separator cs := by
  have hne := fields_ne_nil separator cs
  simp only [fields]
  cases hfields : fields separator cs with
  | nil => exact absurd hfields hne
  | cons field rest => simp

theorem fields_append_separator (separator : Char) (xs ys : List Char) :
    fields separator (xs ++ separator :: ys) = fields separator xs ++ fields separator ys := by
  induction xs with
  | nil => simp [fields_cons_separator, fields]
  | cons x xs ih =>
    have hne := fields_ne_nil separator xs
    simp only [List.cons_append, fields, ih]
    cases hfields : fields separator xs with
    | nil => exact absurd hfields hne
    | cons field rest =>
      simp only [List.cons_append]
      split <;> simp

theorem fields_of_notMem {separator : Char} {cs : List Char} (h : separator ∉ cs) :
    fields separator cs = [cs] := by
  induction cs with
  | nil => rfl
  | cons c cs ih =>
    simp only [List.mem_cons, not_or] at h
    obtain ⟨hc, hcs⟩ := h
    simp [fields, ih hcs, Ne.symm hc]

theorem separator_notMem_of_mem_fields {separator : Char} {cs field : List Char}
    (h : field ∈ fields separator cs) : separator ∉ field := by
  induction cs generalizing field with
  | nil =>
    simp only [fields, List.mem_singleton] at h
    simp [h]
  | cons c cs ih =>
    have hne := fields_ne_nil separator cs
    simp only [fields] at h
    cases hfields : fields separator cs with
    | nil => exact absurd hfields hne
    | cons first rest =>
      simp only [hfields, List.mem_cons] at ih
      rw [hfields] at h
      dsimp only at h
      split at h
      · rcases List.mem_cons.mp h with rfl | h
        · simp
        · exact ih (List.mem_cons.mp h)
      · rename_i hc
        rcases List.mem_cons.mp h with rfl | h
        · have hfirst := ih (.inl rfl)
          simp [hfirst, Ne.symm hc]
        · exact ih (.inr h)

theorem intercalate_fields (separator : Char) (cs : List Char) :
    [separator].intercalate (fields separator cs) = cs := by
  induction cs with
  | nil => simp [fields, List.intercalate]
  | cons c cs ih =>
    have hne := fields_ne_nil separator cs
    simp only [fields]
    cases hfields : fields separator cs with
    | nil => exact absurd hfields hne
    | cons first rest =>
      rw [hfields] at ih
      dsimp only
      split
      · rename_i hc
        rw [List.intercalate_cons_cons, ih, hc]
        simp
      · cases rest with
        | nil => simp_all [List.intercalate]
        | cons second rest =>
          rw [List.intercalate_cons_cons] at ih ⊢
          rw [← ih]
          simp

theorem notMem_intercalate {c : Char} {separator : List Char} {parts : List (List Char)}
    (hseparator : c ∉ separator) (hparts : ∀ part ∈ parts, c ∉ part) :
    c ∉ separator.intercalate parts := by
  induction parts with
  | nil => simp [List.intercalate]
  | cons part parts ih =>
    obtain ⟨hpart, hparts⟩ := List.forall_mem_cons.mp hparts
    cases parts with
    | nil => rwa [List.intercalate_singleton]
    | cons next parts =>
      rw [List.intercalate_cons_cons]
      simp [hpart, hseparator, ih hparts]

/-! ## Cutting -/

theorem cut?_append {separator : Char} {xs : List Char} (h : separator ∉ xs) (ys : List Char) :
    cut? separator (xs ++ separator :: ys) = some (xs, ys) := by
  induction xs with
  | nil => simp [cut?]
  | cons x xs ih =>
    simp only [List.mem_cons, not_or] at h
    rw [List.cons_append, cut?, if_neg (Ne.symm h.1), ih h.2, Option.map_some]

theorem cut?_eq_none {separator : Char} {cs : List Char} (h : separator ∉ cs) :
    cut? separator cs = none := by
  induction cs with
  | nil => rfl
  | cons c cs ih =>
    simp only [List.mem_cons, not_or] at h
    rw [cut?, if_neg (Ne.symm h.1), ih h.2, Option.map_none]

theorem chop?_append (last : Char) (cs : List Char) : chop? last (cs ++ [last]) = some cs := by
  simp [chop?]

/-! ## Trimming -/

structure Tight (cs : List Char) : Prop where
  head : ∀ c ∈ cs.head?, isBlank c = false
  last : ∀ c ∈ cs.getLast?, isBlank c = false

theorem tight_iff {cs : List Char} :
    (cs.head?.all (!isBlank ·) && cs.getLast?.all (!isBlank ·)) = true ↔ Tight cs := by
  rw [Bool.and_eq_true_iff, Option.all_eq_true, Option.all_eq_true]
  simp only [Bool.not_eq_true']
  exact ⟨fun h => ⟨h.1, h.2⟩, fun h => ⟨h.head, h.last⟩⟩

instance (cs : List Char) : Decidable (Tight cs) := decidable_of_iff _ tight_iff

theorem trim_cons_of_isBlank {c : Char} (h : isBlank c = true) (cs : List Char) :
    trim (c :: cs) = trim cs := by
  rw [trim, List.dropWhile_cons_of_pos h, trim]

theorem dropWhile_of_head {cs : List Char} (h : ∀ c ∈ cs.head?, isBlank c = false) :
    cs.dropWhile isBlank = cs := by
  cases cs with
  | nil => rfl
  | cons c cs => rw [List.dropWhile_cons_of_neg (by simp [h c rfl])]

theorem Tight.trim_eq {cs : List Char} (h : Tight cs) : trim cs = cs := by
  have hreverse : cs.reverse.dropWhile isBlank = cs.reverse :=
    dropWhile_of_head fun c hc => h.last c (by simpa using hc)
  rw [trim, dropWhile_of_head h.head, hreverse, List.reverse_reverse]

theorem tight_of_forall {cs : List Char} (h : ∀ c ∈ cs, isBlank c = false) : Tight cs :=
  ⟨fun c hc => h c (List.mem_of_mem_head? hc), fun c hc => h c (List.mem_of_mem_getLast? hc)⟩

theorem tight_enclosed {first last : Char} (hfirst : isBlank first = false)
    (hlast : isBlank last = false) (inner : List Char) : Tight (first :: (inner ++ [last])) := by
  refine ⟨fun c hc => ?_, fun c hc => ?_⟩
  · cases hc
    exact hfirst
  · rw [← List.cons_append, List.getLast?_concat] at hc
    cases hc
    exact hlast

theorem Tight.append {xs ys : List Char} (hxs : xs ≠ []) (hys : ys ≠ [])
    (hhead : ∀ c ∈ xs.head?, isBlank c = false) (hlast : ∀ c ∈ ys.getLast?, isBlank c = false) :
    Tight (xs ++ ys) := by
  refine ⟨fun c hc => hhead c ?_, fun c hc => hlast c ?_⟩
  · rwa [List.head?_append_of_ne_nil _ hxs] at hc
  · rwa [List.getLast?_append_of_ne_nil _ hys] at hc

/-- A text with nothing to trim and none of the separators. -/
structure Plain (separators : List Char) (s : String) : Prop where
  tight : Tight s.toList
  notMem : ∀ c ∈ separators, c ∉ s.toList

instance (separators : List Char) (s : String) : Decidable (Plain separators s) :=
  decidable_of_iff (Tight s.toList ∧ separators.all (fun c => c ∉ s.toList) = true)
    ⟨fun h => ⟨h.1, by simpa using h.2⟩, fun h => ⟨h.tight, by simpa using h.notMem⟩⟩

end RoleLottery.Text
