import RoleLottery.Proofs.Binary64.Rounding
import RoleLottery.Proofs.Bundle.Copies
import RoleLottery.Proofs.Bundle.Reading
import RoleLottery.Proofs.Decimal

/-!
# Amounts that are read

A text is only accepted with amounts that are finite and not negative, and only amounts with
thousandths are stored. An amount is checked before it is rounded to thousandths and added to others
of its name and role. The stored amount is finite as long as the thousandths of the written ones
are in the range of the doubles.
-/

namespace RoleLottery

open Binary64

namespace Bundle

variable {b c : Bundle Float} {r s : Resource Float} {field entry cs : List Char}
  {fields done : List (List Char)} {name : String} {v : Value Float} {a w : Float}

/-- The amount that a field of a text has behind its colon, before it is rounded. -/
def writtenAmount? (field : List Char) : Option Float :=
  (Text.cut? ':' field).bind fun parts => DecimalText.read? (Text.trim parts.2)

theorem parseValue_eq_ok (h : parseValue entry name cs = .ok v) :
    (∀ w, Decimal.read? cs = some w → w.isFinite = true ∧ 0 ≤ w) ∧
      ∀ a, v = .scalar a → ∃ w, Decimal.read? cs = some w ∧ a = roundThousandths w := by
  unfold parseValue at h
  split at h
  · refine ⟨fun w hw => ?_, fun a ha => ?_⟩
    · rw [Decimal.read?_eq_none (.inl rfl)] at hw
      cases hw
    · split at h
      · cases h
      · obtain ⟨is, -, hv⟩ := exists_of_map_eq_ok h
        rw [ha] at hv
        cases hv
  · refine ⟨fun w hw => ?_, fun a ha => ?_⟩
    · rw [Decimal.read?_eq_none (.inr rfl)] at hw
      cases hw
    · rw [ha] at h
      split at h <;> cases h
  · split at h
    · cases h
    · rename_i w hw
      split at h
      · rename_i hchecked
        obtain ⟨hfinite, hneg⟩ := Bool.and_eq_true_iff.mp hchecked
        have hneg : ¬w < 0 := of_decide_eq_false (Bool.not_eq_true' _ ▸ hneg)
        cases h
        refine ⟨fun w' hw' => ?_, fun a ha => ⟨w, hw, ?_⟩⟩
        · cases hw.symm.trans hw'
          exact ⟨hfinite, nonneg_of_not_neg hfinite hneg⟩
        · cases ha
          rfl
      · cases h

theorem parseEntry_eq_ok (h : parseEntry field = .ok r) :
    r.shared = false ∧
      (∀ w, writtenAmount? field = some w → w.isFinite = true ∧ 0 ≤ w) ∧
      ∀ a, r.value = .scalar a → ∃ w, writtenAmount? field = some w ∧ a = roundThousandths w := by
  obtain ⟨key, value, name, role, v, hcut, -, -, -, hvalue, rfl⟩ := parseEntry_eq_ok_iff.mp h
  have hwritten : writtenAmount? field = Decimal.read? (Text.trim value) := by
    simp [writtenAmount?, hcut, DecimalText.read?]
  rw [hwritten]
  exact ⟨rfl, parseValue_eq_ok hvalue⟩

/-! ## Grains of one quantity -/

/-- The grains of what a field writes for the quantity of `r`. -/
def grainsFor (r : Resource Float) (field : List Char) : ℕ :=
  if (parseEntry field).toOption.any r.isMergeable then
    (writtenAmount? field).elim 0 grains
  else 0

def totalGrains (r : Resource Float) (fields : List (List Char)) : ℕ :=
  (fields.map (grainsFor r)).sum

theorem totalGrains_congr (h : s.key = r.key) (fields : List (List Char)) :
    totalGrains s fields = totalGrains r fields := by
  have hmergeable : s.isMergeable = r.isMergeable := funext (Resource.isMergeable_congr h)
  have hfor : grainsFor s = grainsFor r := by
    funext field
    rw [grainsFor, grainsFor, hmergeable]
  rw [totalGrains, totalGrains, hfor]

theorem totalGrains_append (r : Resource Float) (done : List (List Char)) (field : List Char) :
    totalGrains r (done ++ [field]) = totalGrains r done + grainsFor r field := by
  simp [totalGrains]

theorem grainsFor_eq (hr : parseEntry field = .ok r) (hs : s.isMergeable r = true)
    (hw : writtenAmount? field = some w) : grainsFor s field = grains w := by
  simp [grainsFor, hr, hw, hs, Except.toOption]

/-- The amount has thousandths, and no more grains than were written, as long as the thousandths of
these are in range. -/
def Backed (fields : List (List Char)) (r : Resource Float) : Prop :=
  ∀ a, r.value = .scalar a → 0 < thousandths a ∧
    (totalGrains r fields ≤ mostGrains → ∃ q, HasValue a q ∧ q ≤ totalGrains r fields * grain)

theorem Backed.append (h : Backed done r) (field : List Char) : Backed (done ++ [field]) r := by
  intro a ha
  obtain ⟨hpos, hgrains⟩ := h a ha
  refine ⟨hpos, fun hrange => ?_⟩
  rw [totalGrains_append] at hrange ⊢
  obtain ⟨q, hq, hle⟩ := hgrains (by omega)
  refine ⟨q, hq, hle.trans (mul_le_mul_of_nonneg_right ?_ grain_pos.le)⟩
  exact_mod_cast Nat.le_add_right _ _

theorem written_grains (hr : parseEntry field = .ok r) (ha : r.value = .scalar a)
    (hs : s.isMergeable r = true) (hrange : grainsFor s field ≤ mostGrains) :
    ∃ q, HasValue a q ∧ q ≤ grainsFor s field * grain := by
  obtain ⟨-, hwritten, hscalar⟩ := parseEntry_eq_ok hr
  obtain ⟨w, hw, rfl⟩ := hscalar a ha
  obtain ⟨hfinite, hnonneg⟩ := hwritten w hw
  rw [grainsFor_eq hr hs hw] at hrange ⊢
  exact (hasValue_exact hfinite hnonneg).roundThousandths_le_grains (exact_le_grains w) hrange

theorem thousandths_pos (ha : r.value = .scalar a) (hcontent : r.isEmpty = false) :
    0 < thousandths a := by
  rw [Resource.isEmpty, ha, Value.isEmpty, decide_eq_false_iff_not, not_le] at hcontent
  exact hcontent

theorem backed_written (hr : parseEntry field = .ok r) (hcontent : r.isEmpty = false)
    (done : List (List Char)) : Backed (done ++ [field]) r := by
  intro a ha
  refine ⟨thousandths_pos ha hcontent, fun hrange => ?_⟩
  have hself : r.isMergeable r = true :=
    (Resource.isMergeable_iff (parseEntry_eq_ok hr).1).mpr rfl
  rw [totalGrains_append] at hrange ⊢
  obtain ⟨q, hq, hle⟩ := written_grains hr ha hself (le_of_add_le_right hrange)
  refine ⟨q, hq, hle.trans (mul_le_mul_of_nonneg_right ?_ grain_pos.le)⟩
  exact_mod_cast Nat.le_add_left _ _

theorem Backed.merge (hs : Backed done s) (hr : parseEntry field = .ok r)
    (hcontent : r.isEmpty = false) (hmerge : s.isMergeable r = true) :
    Backed (done ++ [field]) { s with value := s.value.merge r.value } := by
  obtain ⟨hsshared, hrshared⟩ := Resource.shared_of_isMergeable hmerge
  have hkind := (Resource.quantity_of_key_eq hrshared (Resource.key_eq_of_isMergeable hmerge)).2
  have hkey := Resource.key_setValue hsshared (Value.kind_merge s.value r.value)
  intro sum hsum
  rw [totalGrains_congr hkey, totalGrains_append]
  obtain ⟨a, a', ha, ha', rfl⟩ := Value.exists_of_merge_eq_scalar hkind hsum
  obtain ⟨hpos, hgrains⟩ := hs a ha
  refine ⟨thousandths_plus_pos hpos (thousandths_pos ha' hcontent), fun hrange => ?_⟩
  obtain ⟨q, hq, hle⟩ := hgrains (le_of_add_le_left hrange)
  obtain ⟨q', hq', hle'⟩ := written_grains hr ha' hmerge (le_of_add_le_right hrange)
  exact hq.plus_le_grains hq' hle hle' hrange

theorem Backed.insert (h : ∀ e ∈ b.entries, Backed done e.resource)
    (hr : parseEntry field = .ok r) :
    ∀ e ∈ (b.insert r).entries, Backed (done ++ [field]) e.resource := by
  have hunshared := (parseEntry_eq_ok hr).1
  intro d hd
  rcases putCopies_outcome b r 1 with hsame | ⟨⟨-, hempty⟩, ⟨-, hlast⟩ | ⟨e, haccepts, hswap⟩⟩
  · rw [Bundle.insert, hsame] at hd
    exact (h d hd).append field
  · rw [Bundle.insert, hlast, List.mem_append, List.mem_singleton] at hd
    rcases hd with hd | rfl
    · exact (h d hd).append field
    · exact backed_written hr (hempty hunshared) done
  · rcases hswap.mem hd with hd | hd
    · exact (h d hd).append field
    · cases hd
      rw [Entry.joined_of_unshared hunshared]
      exact (h e hswap.mem_old).merge hr (hempty hunshared)
        (Resource.accepts_of_unshared hunshared _ ▸ haccepts)

theorem Backed.parseInto (h : ∀ e ∈ b.entries, Backed done e.resource)
    (hc : b.parseInto fields = .ok c) : ∀ e ∈ c.entries, Backed (done ++ fields) e.resource := by
  induction fields generalizing b done with
  | nil =>
    cases hc
    rwa [List.append_nil]
  | cons field fields ih =>
    rw [Bundle.parseInto] at hc
    cases hr : parseEntry (α := Float) field with
    | error fault =>
      rw [hr] at hc
      cases hc
    | ok r =>
      rw [hr] at hc
      have hrest := ih (Backed.insert h hr) hc
      rwa [List.append_assoc] at hrest

theorem exists_of_parseInto (hc : b.parseInto fields = .ok c) :
    ∀ field ∈ fields, ∃ r : Resource Float, parseEntry field = .ok r := by
  rw [parseInto_eq] at hc
  obtain ⟨rs, hrs, -⟩ := exists_of_map_eq_ok hc
  exact fun field hfield => exists_of_mapM_eq_ok hrs hfield

/-- What is written is finite and not negative, and what is stored is positive. It is finite too, as
long as the grains that are written for it have thousandths in range. -/
theorem amounts_of_parse {text : String} (h : parse text = .ok b) :
    (∀ field ∈ trimmedFields ';' text.toList, ∀ w, writtenAmount? field = some w →
      w.isFinite = true ∧ 0 ≤ w) ∧
    ∀ e ∈ b.entries, ∀ a, e.resource.value = .scalar a →
      0 < a ∧ (totalGrains e.resource (trimmedFields ';' text.toList) ≤ mostGrains →
        a.isFinite = true) := by
  refine ⟨fun field hfield => ?_, fun e he a ha => ?_⟩
  · obtain ⟨r, hr⟩ := exists_of_parseInto h field hfield
    exact (parseEntry_eq_ok hr).2.1
  · have hempty : ∀ e ∈ (empty : Bundle Float).entries, Backed [] e.resource :=
      fun _ he => absurd he List.not_mem_nil
    have hbacked := Backed.parseInto hempty h
    obtain ⟨hpos, hgrains⟩ := hbacked e he a ha
    refine ⟨pos_of_thousandths_pos hpos, fun hrange => ?_⟩
    obtain ⟨q, hq, -⟩ := hgrains hrange
    exact hq.isFinite

theorem exists_of_any_parse {text : String} {p : Bundle Float → Bool}
    (h : (parse text : Except BundleFault (Bundle Float)).toOption.any p = true) :
    ∃ b, parse text = .ok b ∧ p b = true := by
  cases hb : (parse text : Except BundleFault (Bundle Float)) with
  | error fault =>
    rw [hb] at h
    cases h
  | ok b =>
    rw [hb] at h
    exact ⟨b, rfl, h⟩

def memoryText : String := "mem:1.5; ports:[1-3]; mem:0.5"

theorem amounts_of_parse_memory : ∃ b : Bundle Float, parse memoryText = .ok b ∧
    ∃ e ∈ b.entries, ∃ a, e.resource.value = .scalar a ∧
      totalGrains e.resource (trimmedFields ';' memoryText.toList) ≤ mostGrains ∧
      0 < a ∧ a.isFinite = true := by
  have hstored : (parse memoryText : Except BundleFault (Bundle Float)).toOption.any
      (·.entries.any fun e => e.resource.value.isScalar &&
        totalGrains e.resource (trimmedFields ';' memoryText.toList) ≤ mostGrains) = true := by
    decide +kernel
  obtain ⟨b, hb, hany⟩ := exists_of_any_parse hstored
  obtain ⟨e, he, hscalar⟩ := List.any_eq_true.mp hany
  obtain ⟨hvalue, hrange⟩ := Bool.and_eq_true_iff.mp hscalar
  obtain ⟨a, ha⟩ := Option.isSome_iff_exists.mp hvalue
  have hrange := of_decide_eq_true hrange
  have ha := Value.amount?_eq_some_iff.mp ha
  have hamount := (amounts_of_parse hb).2 e he a ha
  exact ⟨b, hb, e, he, a, ha, hrange, hamount.1, hamount.2 hrange⟩

/-- The amount is in range, and its thousandths are not. -/
theorem infinite_amount_stored : ∃ b : Bundle Float, parse "mem:1e308" = .ok b ∧
    ∃ e ∈ b.entries, ∃ a, e.resource.value = .scalar a ∧ a.isFinite = false := by
  have hstored : (parse "mem:1e308" : Except BundleFault (Bundle Float)).toOption.any
      (·.entries.any fun e => e.resource.value.amount?.any (!·.isFinite)) = true := by
    decide +kernel
  obtain ⟨b, hb, hany⟩ := exists_of_any_parse hstored
  obtain ⟨e, he, hamount⟩ := List.any_eq_true.mp hany
  obtain ⟨a, ha, hinfinite⟩ := (Option.any_eq_true _ _).mp hamount
  exact ⟨b, hb, e, he, a, Value.amount?_eq_some_iff.mp ha, by simpa using hinfinite⟩

end Bundle

end RoleLottery
