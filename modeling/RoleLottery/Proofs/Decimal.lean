import Mathlib.Tactic.Common
import RoleLottery.DecimalText
import RoleLottery.Text.Blank

/-!
# Written numbers

A whole number is read from its digits. A finite double is displayed with digits, a point and a sign
and nothing else.
-/

namespace RoleLottery

namespace Decimal

variable {c : Char} {ds : List Char} {n : Nat}

/-- A character that displayed numbers and ranges are made of. -/
def IsNumeric (c : Char) : Prop := c.isDigit = true ∨ c = '.' ∨ c = '-'

instance : DecidablePred IsNumeric := fun _ => inferInstanceAs (Decidable (_ ∨ _ ∨ _))

theorem toNat_of_isDigit (h : c.isDigit = true) : 48 ≤ c.toNat ∧ c.toNat ≤ 57 := by
  simp only [Char.isDigit, Bool.and_eq_true, decide_eq_true_eq] at h
  exact ⟨UInt32.le_iff_toNat_le.mp h.1, UInt32.le_iff_toNat_le.mp h.2⟩

theorem isBlank_of_isNumeric (h : IsNumeric c) : Text.isBlank c = false := by
  rcases h with h | rfl | rfl
  · obtain ⟨hlow, hhigh⟩ := toNat_of_isDigit h
    simp [Text.isBlank]
    omega
  · rfl
  · rfl

/-! ## Whole numbers -/

theorem isDigit_digits (n : Nat) : ∀ c ∈ digits n, c.isDigit = true := fun _ =>
  Nat.isDigit_of_mem_toDigits (by decide) (by decide)

theorem digits_ne_nil (n : Nat) : digits n ≠ [] := Nat.toDigits_ne_nil

theorem ofDigits_digits (n : Nat) : ofDigits (digits n) = n := Nat.ofDigitChars_ten_toDigits

theorem readUInt64?_of_unsigned {cs : List Char} (h : ∀ ds, cs ≠ '+' :: ds) :
    readUInt64? cs = if cs ≠ [] ∧ cs.all Char.isDigit ∧ ofDigits cs < Nat.pow 2 64 then
      some (ofDigits cs).toUInt64 else none := by
  unfold readUInt64?
  dsimp only
  split <;> simp_all

theorem readUInt64?_digits (n : UInt64) : readUInt64? (digits n.toNat) = some n := by
  have hdigits := isDigit_digits n.toNat
  have hunsigned (ds : List Char) : digits n.toNat ≠ '+' :: ds := by
    intro hplus
    have hsign := hdigits '+' (hplus ▸ List.mem_cons_self)
    cases hsign
  have hbound : ofDigits (digits n.toNat) < Nat.pow 2 64 := by
    rw [ofDigits_digits]
    exact n.toNat_lt
  rw [readUInt64?_of_unsigned hunsigned,
    if_pos ⟨digits_ne_nil _, List.all_eq_true.mpr hdigits, hbound⟩, ofDigits_digits]
  exact congrArg some (UInt64.ofNat_toNat)

/-! ## Doubles -/

theorem read?_eq_none {c : Char} (hc : c = '[' ∨ c = '\x7b') (cs : List Char) :
    read? (c :: cs) = none := by
  have hsign : splitSign (c :: cs) = (false, c :: cs) := by rcases hc with rfl | rfl <;> rfl
  have hdigits : readUnsigned? (c :: cs) = none := by rcases hc with rfl | rfl <;> rfl
  have hword (s : String) (hs : s.toList.head? ≠ some c) :
      String.ofList ((c :: cs).map Char.toLower) ≠ s := by
    intro hlower
    rw [← hlower] at hs
    rcases hc with rfl | rfl <;> simp at hs
  have hinf := hword "inf" (by rcases hc with rfl | rfl <;> decide)
  have hinfinity := hword "infinity" (by rcases hc with rfl | rfl <;> decide)
  have hnan := hword "nan" (by rcases hc with rfl | rfl <;> decide)
  simp only [read?, hsign, hdigits, hinf, hinfinity, hnan, or_self, if_false, Option.map_none,
    Bool.false_eq_true]

theorem isNumeric_of_mem_positional {e : Int} (hds : ∀ d ∈ ds, IsNumeric d)
    (hc : c ∈ positional ds e) : IsNumeric c := by
  have hzero {k : Nat} (h : c ∈ List.replicate k '0') : IsNumeric c := by
    rw [List.eq_of_mem_replicate h]
    exact .inl rfl
  unfold positional at hc
  dsimp only at hc
  split at hc
  · rcases List.mem_append.mp hc with hc | hc
    · exact hds c hc
    · exact hzero hc
  · split at hc
    · rcases List.mem_append.mp hc with hc | hc
      · exact hds c (List.mem_of_mem_take hc)
      · rcases List.mem_cons.mp hc with rfl | hc
        · exact .inr (.inl rfl)
        · exact hds c (List.mem_of_mem_drop hc)
    · simp only [List.mem_cons, List.mem_append] at hc
      rcases hc with rfl | rfl | hc | hc
      · exact .inl rfl
      · exact .inr (.inl rfl)
      · exact hzero hc
      · exact hds c hc

theorem positional_ne_nil {e : Int} (h : ds ≠ []) : positional ds e ≠ [] := by
  unfold positional
  dsimp only
  split
  · exact List.append_ne_nil_of_left_ne_nil h _
  · split <;> simp

end Decimal

namespace NumberStyle

variable {x : Float}

theorem not_special_of_isFinite (h : x.isFinite = true) : x.isNaN = false ∧ x.isInf = false := by
  change x.toModel.unpack.isFinite = true at h
  change x.toModel.unpack.isNaN = false ∧ x.toModel.unpack.isInf = false
  generalize x.toModel.unpack = u at h ⊢
  cases u with
  | notANumber => cases h
  | infinity s => cases h
  | zero s => exact ⟨rfl, rfl⟩
  | finite s m e hm => exact ⟨rfl, rfl⟩

theorem display_write (h : x.isFinite = true) : ∃ n e,
    (display.write x).toList =
      (if Binary64.isNegative x then ['-'] else []) ++ Decimal.positional (Decimal.digits n) e := by
  obtain ⟨hnan, hinf⟩ := not_special_of_isFinite h
  rw [write, hnan, hinf, if_neg Bool.false_ne_true, if_neg Bool.false_ne_true, String.toList_ofList]
  exact ⟨_, _, congrArg _ (List.append_nil _)⟩

theorem isNumeric_of_mem_display (h : x.isFinite = true) :
    ∀ c ∈ (display.write x).toList, Decimal.IsNumeric c := by
  obtain ⟨n, e, hwritten⟩ := display_write h
  intro c hc
  rw [hwritten] at hc
  rcases List.mem_append.mp hc with hc | hc
  · split at hc
    · exact .inr (.inr (List.mem_singleton.mp hc))
    · cases hc
  · exact Decimal.isNumeric_of_mem_positional
      (fun d hd => .inl (Decimal.isDigit_digits n d hd)) hc

theorem display_write_ne_nil (h : x.isFinite = true) : (display.write x).toList ≠ [] := by
  obtain ⟨n, e, hwritten⟩ := display_write h
  rw [hwritten]
  exact List.append_ne_nil_of_right_ne_nil _
    (Decimal.positional_ne_nil (Decimal.digits_ne_nil n))

end NumberStyle

end RoleLottery
