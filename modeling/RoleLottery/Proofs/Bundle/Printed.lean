import RoleLottery.Proofs.Bundle.Composed
import RoleLottery.Proofs.Bundle.Reading
import RoleLottery.Proofs.Decimal

/-!
# Displayed bundles that are read again

A displayed value comes back when its labels are not divided and its amount is read as what it was.
The key in front of it comes back up to the first colon, with the name up to the first parenthesis
and the role up to the last one. So the entries of a bundle of quantities come back between their
semicolons, and they are collected to the bundle that they were displayed from.
-/

namespace RoleLottery

open RoleLottery.Bundle (IsField)
open RoleLottery.Decimal (IsNumeric)

/-! ## Ranges -/

namespace Interval

variable {i : Interval} {is : List Interval}

theorem toList_text (i : Interval) :
    i.text.toList = Decimal.digits i.first.toNat ++ '-' :: Decimal.digits i.last.toNat := by
  simp [text, Decimal.digits]

theorem isNumeric_of_mem_text (i : Interval) : ∀ c ∈ i.text.toList, IsNumeric c := by
  intro c hc
  rw [toList_text, List.mem_append, List.mem_cons] at hc
  rcases hc with hc | rfl | hc
  · exact .inl (Decimal.isDigit_digits _ c hc)
  · exact .inr (.inr rfl)
  · exact .inl (Decimal.isDigit_digits _ c hc)

theorem isField_text (i : Interval) {separator : Char} (h : ¬IsNumeric separator) :
    IsField separator i.text.toList where
  ne_nil := by simp [toList_text]
  tight := Text.tight_of_forall fun c hc =>
    Decimal.isBlank_of_isNumeric (i.isNumeric_of_mem_text c hc)
  notMem hmem := h (i.isNumeric_of_mem_text separator hmem)

theorem parseInterval?_text (hi : i.Proper) : Bundle.parseInterval? i.text.toList = some i := by
  have htrim (n : Nat) : Text.trim (Decimal.digits n) = Decimal.digits n := by
    apply Text.Tight.trim_eq
    exact Text.tight_of_forall fun c hc =>
      Decimal.isBlank_of_isNumeric (.inl (Decimal.isDigit_digits n c hc))
  have hdash : '-' ∉ Decimal.digits i.first.toNat := by
    intro hmem
    cases Decimal.isDigit_digits _ _ hmem
  simp [Bundle.parseInterval?, toList_text, Text.cut?_append hdash, htrim,
    Decimal.readUInt64?_digits, UInt64.not_lt.mpr hi]

theorem parseIntervals_text {name : String} (his : ∀ i ∈ is, i.Proper) :
    Bundle.parseIntervals name (is.map fun i => i.text.toList) = .ok is := by
  induction is with
  | nil => rfl
  | cons i is ih =>
    obtain ⟨hi, his⟩ := List.forall_mem_cons.mp his
    rw [List.map_cons, Bundle.parseIntervals, parseInterval?_text hi, ih his]
    rfl

end Interval

/-! ## Values -/

/-- A displayed amount is read as what it was, and rounding leaves it as it is. -/
structure DecimalText.Faithful (a : Float) : Prop where
  read : read? (write a).toList = some a
  round : Binary64.roundThousandths a = a

instance : DecidablePred DecimalText.Faithful := fun a =>
  decidable_of_iff (DecimalText.read? (DecimalText.write a).toList = some a ∧
      Binary64.roundThousandths a = a)
    ⟨fun h => ⟨h.1, h.2⟩, fun h => ⟨h.read, h.round⟩⟩

namespace Value

/-- Finite amounts, and labels that are not divided. -/
def Writable : Value Float → Prop
  | .scalar a => a.isFinite = true
  | .ranges _ => True
  | .set s => ∀ label ∈ s.items, label ≠ "" ∧ Text.Plain [',', ';'] label

instance : DecidablePred Writable
  | .scalar a => inferInstanceAs (Decidable (a.isFinite = true))
  | .ranges _ => inferInstanceAs (Decidable True)
  | .set s => inferInstanceAs
    (Decidable (∀ label ∈ s.items, label ≠ "" ∧ Text.Plain [',', ';'] label))

variable {v : Value Float} {s : Labels}

theorem toList_text_ranges (is : List Interval) : (ranges (α := Float) is).text.toList =
    '[' :: ([',', ' '].intercalate (is.map fun i => i.text.toList) ++ [']']) := by
  simp [text, String.toList_intercalate, Function.comp_def]

theorem toList_text_set (s : Labels) : (set (α := Float) s).text.toList =
    '\x7b' :: ([',', ' '].intercalate (s.items.map String.toList) ++ ['\x7d']) := by
  simp [text, String.toList_intercalate]

theorem Writable.isField_label (h : (set s).Writable) {c : Char} (hc : c ∈ [',', ';']) :
    ∀ part ∈ s.items.map String.toList, IsField c part := by
  intro part hpart
  obtain ⟨label, hlabel, rfl⟩ := List.mem_map.mp hpart
  obtain ⟨hne, hplain⟩ := h label hlabel
  exact ⟨by simpa using hne, hplain.tight, hplain.notMem c hc⟩

theorem Writable.isField_text (h : v.Writable) : IsField ';' v.text.toList := by
  have hsemicolon : ¬IsNumeric ';' := by decide
  cases v with
  | scalar a =>
    refine ⟨NumberStyle.display_write_ne_nil h, Text.tight_of_forall fun c hc => ?_, fun hmem => ?_⟩
    · exact Decimal.isBlank_of_isNumeric (NumberStyle.isNumeric_of_mem_display h c hc)
    · exact hsemicolon (NumberStyle.isNumeric_of_mem_display h ';' hmem)
  | ranges is =>
    have hparts : ';' ∉ [',', ' '].intercalate (is.map fun i => i.text.toList) := by
      apply Text.notMem_intercalate (by decide)
      simpa using fun i _ => (i.isField_text hsemicolon).notMem
    rw [toList_text_ranges]
    exact ⟨List.cons_ne_nil _ _, Text.tight_enclosed rfl rfl _, by simp [hparts]⟩
  | set s =>
    have hparts : ';' ∉ [',', ' '].intercalate (s.items.map String.toList) :=
      Text.notMem_intercalate (by decide) fun part hpart =>
        (h.isField_label (by decide) part hpart).notMem
    rw [toList_text_set]
    exact ⟨List.cons_ne_nil _ _, Text.tight_enclosed rfl rfl _, by simp [hparts]⟩

end Value

namespace Bundle

variable {entry : List Char} {name : String} {v : Value Float} {s : Labels} {a : Float}

theorem parseValue_text_scalar (hfinite : a.isFinite = true) (hpos : 0 < Binary64.thousandths a)
    (ha : DecimalText.Faithful a) :
    parseValue entry name (Value.scalar a).text.toList = .ok (Value.scalar a) := by
  have hread : Decimal.read? (Value.scalar a).text.toList = some a := ha.read
  have hvalue := Binary64.hasValue_exact hfinite (Binary64.nonneg_of_thousandths_pos hpos)
  have hnonneg : ¬a < 0 := by
    rw [hvalue.lt_iff Binary64.hasValue_zero]
    exact not_lt.mpr hvalue.nonneg
  -- What begins with a bracket or a brace is no number, so the text is read as one.
  unfold parseValue
  split
  · rename_i heq
    rw [heq, Decimal.read?_eq_none (.inl rfl)] at hread
    cases hread
  · rename_i heq
    rw [heq, Decimal.read?_eq_none (.inr rfl)] at hread
    cases hread
  · simp [DecimalText.read?, hread, Amount.isFinite, Amount.lt, Amount.zero, hfinite, hnonneg,
      Value.ofAmount, Amount.round, ha.round]

theorem parseValue_text_ranges {is : List Interval} (his : Interval.Canonical is) :
    parseValue entry name (Value.ranges (α := Float) is).text.toList =
      .ok (Value.ranges (α := Float) is) := by
  have hcomma : ¬IsNumeric ',' := by decide
  have hparts : ∀ part ∈ is.map fun i => i.text.toList, IsField ',' part := by
    simpa using fun i _ => i.isField_text hcomma
  rw [Value.toList_text_ranges]
  simp [parseValue, Text.chop?_append, trimmedFields_intercalate (by decide) hparts,
    Interval.parseIntervals_text his.proper, Except.map, Value.ofRanges, his.canonicalize_eq]

theorem parseValue_text_set (h : (Value.set s).Writable) :
    parseValue entry name (Value.set (α := Float) s).text.toList =
      .ok (Value.set (α := Float) s) := by
  have hparts := h.isField_label (c := ',') (by decide)
  rw [Value.toList_text_set]
  simp [parseValue, Text.chop?_append, trimmedFields_intercalate (by decide) hparts,
    Value.ofLabels, Labels.ofList_items]

theorem parseValue_text (h : v.Writable) (hcanonical : v.Canonical) (hcontent : v.isEmpty = false)
    (hamount : ∀ a, v = .scalar a → DecimalText.Faithful a) :
    parseValue entry name v.text.toList = .ok v := by
  cases v with
  | scalar a =>
    have hpos : 0 < Binary64.thousandths a := not_le.mp (of_decide_eq_false hcontent)
    exact parseValue_text_scalar h hpos (hamount a rfl)
  | ranges is => exact parseValue_text_ranges hcanonical
  | set s => exact parseValue_text_set h

end Bundle

/-! ## Resources -/

namespace Resource

/-- A quantity without id, whose parts are not divided where they meet. -/
structure Writable (r : Resource Float) : Prop where
  shared : r.shared = false
  id : r.id = none
  name_ne : r.name ≠ ""
  name : Text.Plain [':', '(', ';'] r.name
  role : ∀ role ∈ r.role, Text.Plain [':', ';'] role
  value : r.value.Writable

instance : DecidablePred Writable := fun r =>
  decidable_of_iff (r.shared = false ∧ r.id = none ∧ r.name ≠ "" ∧
      Text.Plain [':', '(', ';'] r.name ∧ (∀ role ∈ r.role, Text.Plain [':', ';'] role) ∧
      r.value.Writable)
    ⟨fun ⟨hshared, hid, hne, hname, hrole, hvalue⟩ => ⟨hshared, hid, hne, hname, hrole, hvalue⟩,
      fun h => ⟨h.shared, h.id, h.name_ne, h.name, h.role, h.value⟩⟩

/-- What stands in front of the colon. -/
def keyText (r : Resource Float) : List Char :=
  r.name.toList ++ r.role.elim [] fun role => '(' :: (role.toList ++ [')'])

variable {r : Resource Float}

namespace Writable

theorem toList_text (h : r.Writable) :
    r.text.toList = r.keyText ++ ':' :: r.value.text.toList := by
  cases hrole : r.role <;> simp [text, keyText, h.shared, h.id, hrole]

theorem name_ne_nil (h : r.Writable) : r.name.toList ≠ [] := by
  simpa using h.name_ne

theorem notMem_keyText (h : r.Writable) {c : Char} (hc : c ∈ [':', ';']) : c ∉ r.keyText := by
  have hseparators : [':', ';'] ⊆ [':', '(', ';'] := by decide
  have hname : c ∉ r.name.toList := h.name.notMem c (hseparators hc)
  have hopening : c ≠ '(' := fun heq => absurd (heq ▸ hc) (by decide)
  have hclosing : c ≠ ')' := fun heq => absurd (heq ▸ hc) (by decide)
  cases hrole : r.role with
  | none => simpa [keyText, hrole] using hname
  | some role =>
    have hrole' := (h.role role hrole).notMem c hc
    simp [keyText, hrole, hname, hopening, hclosing, hrole']

theorem tight_keyText (h : r.Writable) : Text.Tight r.keyText := by
  cases hrole : r.role with
  | none => simpa [keyText, hrole] using h.name.tight
  | some role =>
    rw [keyText, hrole]
    exact .append h.name_ne_nil (List.cons_ne_nil _ _) h.name.tight.head
      (Text.tight_enclosed rfl rfl _).last

/-- The name ends at the first parenthesis and the role at the last. -/
theorem parseKey?_keyText (h : r.Writable) :
    Bundle.parseKey? r.keyText = some (r.name.toList, r.role.map String.toList) := by
  have hname : '(' ∉ r.name.toList := h.name.notMem '(' (by decide)
  cases hrole : r.role with
  | none => simp [keyText, hrole, Bundle.parseKey?, Text.cut?_eq_none hname]
  | some role =>
    simp [keyText, hrole, Bundle.parseKey?, Text.cut?_append hname, Text.chop?_append,
      h.name.tight.trim_eq, (h.role role hrole).tight.trim_eq]

theorem isField_text (h : r.Writable) : Bundle.IsField ';' r.text.toList := by
  have hvalue := h.value.isField_text
  have hkey := h.notMem_keyText (c := ';') (by decide)
  have hne : r.keyText ≠ [] := List.append_ne_nil_of_left_ne_nil h.name_ne_nil _
  rw [h.toList_text]
  refine ⟨List.append_ne_nil_of_left_ne_nil hne _, ?_, by simp [hkey, hvalue.notMem]⟩
  refine .append hne (List.cons_ne_nil _ _) h.tight_keyText.head ?_
  rw [← List.singleton_append, List.getLast?_append_of_ne_nil _ hvalue.ne_nil]
  exact hvalue.tight.last

theorem parseEntry_text (h : r.Writable) (hcanonical : r.value.Canonical)
    (hcontent : r.isEmpty = false)
    (hamount : ∀ a, r.value = .scalar a → DecimalText.Faithful a) :
    Bundle.parseEntry r.text.toList = .ok r := by
  have hvalue := h.value.isField_text
  refine Bundle.parseEntry_eq_ok_iff.mpr
    ⟨r.keyText, r.value.text.toList, r.name.toList, r.role.map String.toList, r.value, ?_, ?_,
      h.name_ne_nil, ?_, ?_, ?_⟩
  · rw [h.toList_text]
    exact Text.cut?_append (h.notMem_keyText (by decide)) _
  · rw [h.tight_keyText.trim_eq]
    exact h.parseKey?_keyText
  · rw [hvalue.tight.trim_eq]
    exact hvalue.ne_nil
  · rw [hvalue.tight.trim_eq]
    exact Bundle.parseValue_text h.value hcanonical hcontent hamount
  · obtain ⟨name, v, role, shared, id⟩ := r
    obtain rfl : shared = false := h.shared
    obtain rfl : id = none := h.id
    simp [Option.map_map, Function.comp_def]

end Writable

end Resource

/-! ## Bundles -/

namespace Bundle

variable {b : Bundle Float}

theorem text_eq (hcount : ∀ e ∈ b.entries, e.count = none) :
    b.text = "\x7b" ++ "; ".intercalate (b.resources.map Resource.text) ++ "\x7d" := by
  rw [text, resources, List.map_map]
  congr 3
  refine List.map_congr_left fun e he => ?_
  rw [hcount e he]
  rfl

theorem ofList_resources (h : b.Tidy)
    (hquantities : ∀ e ∈ b.entries, e.resource.shared = false ∧ e.resource.isEmpty = false) :
    ofList b.resources = b := by
  have hcopies : ∀ e ∈ b.entries, e.copies ≠ 0 := fun e he => by
    rw [(h.counted e he).copies_eq_one (hquantities e he).1]
    exact Nat.one_ne_zero
  -- Entries without copies are stored again as their resources are put in.
  refine Eq.trans ?_ ((h.ofEntries_eq_iff fun e he _ => (hquantities e he).2).mpr hcopies)
  rw [ofList, resources, List.foldl_map, ofEntries]
  refine List.foldl_ext _ _ _ fun acc e he => ?_
  rw [(hquantities e he).1]
  rfl

theorem resourcesOf_text (hwritable : ∀ r ∈ b.resources, r.Writable)
    (hread : ∀ r ∈ b.resources, parseEntry r.text.toList = .ok r) :
    resourcesOf ("; ".intercalate (b.resources.map Resource.text)) = .ok b.resources := by
  have hfields : ∀ part ∈ (b.resources.map Resource.text).map String.toList, IsField ';' part := by
    simpa using fun r hr => (hwritable r hr).isField_text
  have hchars : ("; ".intercalate (b.resources.map Resource.text)).toList =
      [';', ' '].intercalate ((b.resources.map Resource.text).map String.toList) :=
    String.toList_intercalate
  rw [resourcesOf, hchars, trimmedFields_intercalate (by decide) hfields, mapM_eq_ok_iff,
    List.map_map, List.forall₂_map_left_iff]
  exact List.forall₂_same.mpr hread

/-- A bundle of writable quantities is read from what stands between the braces of its displayed
text, with the same entries in the same order. -/
theorem parse_text (h : b.Composed fun r => r.value.Constructed)
    (hwritable : ∀ e ∈ b.entries, e.resource.Writable)
    (hamount : ∀ e ∈ b.entries, ∀ a, e.resource.value = .scalar a → DecimalText.Faithful a) :
    ∃ inner, b.text = "\x7b" ++ inner ++ "\x7d" ∧ parse inner = .ok b := by
  have htidy := h.made.tidy
  have hsettled : ∀ e ∈ b.entries, e.resource.value.Canonical ∧ e.resource.isEmpty = false :=
    fun e he => h.settled e he (hwritable e he).shared
  have hcount : ∀ e ∈ b.entries, e.count = none := by
    intro e he
    have hcounted := (htidy.counted e he).isSome_count
    rw [(hwritable e he).shared] at hcounted
    simpa using hcounted
  have hread : ∀ r ∈ b.resources, parseEntry r.text.toList = .ok r := by
    intro r hr
    obtain ⟨e, he, rfl⟩ := List.mem_map.mp hr
    exact (hwritable e he).parseEntry_text (hsettled e he).1 (hsettled e he).2 (hamount e he)
  refine ⟨_, text_eq hcount, ?_⟩
  rw [parse_eq, resourcesOf_text (by simpa [resources] using hwritable) hread]
  exact congrArg Except.ok
    (ofList_resources htidy fun e he => ⟨(hwritable e he).shared, (hsettled e he).2⟩)

/-- Roles with parentheses and without any text, labels with brackets, dashes and colons, and ports
in no order. -/
def decorated : List (Resource Float) :=
  [⟨"cpus", .ofAmount 2.5, some "ads (west)", false, none⟩,
    ⟨"ports", .ofRanges [⟨7, 7⟩, ⟨1, 3⟩], none, false, none⟩,
    ⟨"gpus)", .ofLabels ["\x7bb-1\x7d", "[a: 0]"], some "", false, none⟩]

theorem parse_text_decorated : ∃ inner,
    (ofList decorated).text = "\x7b" ++ inner ++ "\x7d" ∧ parse inner = .ok (ofList decorated) := by
  have hentries : (ofList decorated).entries =
      [⟨⟨"cpus", .scalar 2.5, some "ads (west)", false, none⟩, none⟩,
        ⟨⟨"ports", .ranges [⟨1, 3⟩, ⟨7, 7⟩], none, false, none⟩, none⟩,
        ⟨⟨"gpus)", .ofLabels ["\x7bb-1\x7d", "[a: 0]"], some "", false, none⟩, none⟩] := by
    decide +kernel
  have hconstructed : ∀ r ∈ decorated, r.value.Constructed := by
    simp [decorated, Value.Constructed.ofAmount, Value.Constructed.ofRanges,
      Value.Constructed.ofLabels]
  have hfaithful : DecimalText.Faithful 2.5 := by decide +kernel
  refine parse_text (composed_ofList hconstructed) ?_ ?_
  · rw [hentries]
    decide +kernel
  · simp [hentries, hfaithful, Value.ofLabels]

end Bundle

end RoleLottery
