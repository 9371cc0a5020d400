import RoleLottery.Proofs.Binary64.Doubles
import RoleLottery.Proofs.Quantities
import RoleLottery.Quantities.Json

/-!
# Stored amounts

Whatever is added up or taken away, only positive amounts are stored. The amounts of a JSON text are
stored as they stand, a zero like any other. Without a stored zero quantities are the same when they
have the same amount of each name.
-/

namespace RoleLottery

open Float.Model (UnpackedFloat)

theorem Binary64.beq_zero_of_pos {x : Float} (hx : 0 < x) : (x == 0) = false := by
  rw [BEq.comm, Bool.eq_false_iff]
  intro heq
  have heq : UnpackedFloat.beq (0 : Float).toModel.unpack x.toModel.unpack = true := heq
  rw [lt_iff_unpack, UnpackedFloat.lt, beq_iff_eq] at hx
  rw [UnpackedFloat.beq, hx] at heq
  cases heq

namespace Quantities

/-! ## Equality -/

section

variable {α : Type} [Amount α]

theorem eqEntries_iff {es fs : List (String × α)} : eqEntries es fs = true ↔
    List.Forall₂ (fun e f => e.1 = f.1 ∧ Amount.eq e.2 f.2 = true) es fs := by
  induction es generalizing fs with
  | nil => cases fs <;> simp [eqEntries]
  | cons e es ih =>
    cases fs with
    | nil => simp [eqEntries]
    | cons f fs => simp [eqEntries, ih]

theorem beq_iff_rel {p q : Quantities α} : (p == q) = true ↔
    ∀ name, Option.Rel (fun a b => Amount.eq a b = true) (p.amounts.get? name)
      (q.amounts.get? name) :=
  eqEntries_iff.trans (Table.forall₂_entries_iff (R := fun a b => Amount.eq a b = true))

end

variable {Admitted : String → Prop} {p q : Quantities Float} {name : String} {a : Float}

theorem rel_iff_getD {x y : Option Float} (hx : ∀ a ∈ x, (a == 0) = false)
    (hy : ∀ b ∈ y, (b == 0) = false) :
    Option.Rel (fun a b => (a == b) = true) x y ↔ (x.getD 0 == y.getD 0) = true := by
  cases x with
  | none =>
    cases y with
    | none => exact iff_of_true .none (by decide +kernel)
    | some b =>
      refine iff_of_false (by rintro ⟨⟩) ?_
      rw [Option.getD_none, Option.getD_some, BEq.comm, hy b rfl]
      exact Bool.false_ne_true
  | some a =>
    cases y with
    | none =>
      refine iff_of_false (by rintro ⟨⟩) ?_
      simp [hx a rfl]
    | some b => simp

/-! ## Amounts that are stored -/

/-- The quantities that can be obtained when only admitted JSON texts are read. -/
inductive Obtained (Admitted : String → Prop) : Quantities Float → Prop
  | empty : Obtained Admitted {}
  | ofList (amounts : List (String × Float)) : Obtained Admitted (.ofList amounts)
  | ofBundle (b : Bundle Float) : Obtained Admitted (.ofBundle b)
  | ofJsonText {text : String} {q : Quantities Float} :
    Admitted text → ofJsonText? text = some q → Obtained Admitted q
  | deposit {q : Quantities Float} (name : String) (a : Float) :
    Obtained Admitted q → Obtained Admitted (q.deposit name a)
  | add {p q : Quantities Float} : Obtained Admitted p → Obtained Admitted q →
    Obtained Admitted (p + q)
  | sub {p q : Quantities Float} : Obtained Admitted p → Obtained Admitted q →
    Obtained Admitted (p - q)

def IsRead (Admitted : String → Prop) (name : String) (a : Float) : Prop :=
  ∃ text q, Admitted text ∧ ofJsonText? text = some q ∧ q.amounts.get? name = some a

/-- Each amount is positive, unless it is read. -/
def Accounted (Admitted : String → Prop) (q : Quantities Float) : Prop :=
  ∀ name a, q.amounts.get? name = some a → 0 < a ∨ IsRead Admitted name a

theorem accounted_empty : Accounted Admitted {} := by
  intro name a ha
  cases ha

theorem Accounted.put (h : q.Accounted Admitted) (name : String) (a : Float) :
    (q.put name a).Accounted Admitted := by
  intro other b hb
  rcases isPositive_or_of_put hb with hb | hb
  · exact .inl (of_decide_eq_true hb)
  · exact h other b hb

theorem Accounted.foldl_deposit (h : q.Accounted Admitted) (es : List (String × Float)) :
    (es.foldl (fun acc e => acc.deposit e.1 e.2) q).Accounted Admitted :=
  List.foldlRecOn (motive := Accounted Admitted) es _ h fun _ hacc e _ => hacc.put e.1 _

theorem Accounted.foldl_withdraw (h : q.Accounted Admitted) (es : List (String × Float)) :
    (es.foldl (fun acc e => acc.withdraw e.1 e.2) q).Accounted Admitted :=
  List.foldlRecOn (motive := Accounted Admitted) es _ h fun _ hacc e _ => hacc.put e.1 _

theorem accounted_ofBundle (b : Bundle Float) : (ofBundle b).Accounted Admitted := by
  refine List.foldlRecOn (motive := Accounted Admitted) b.resources _ accounted_empty ?_
  intro acc hacc r _
  cases r.value.amount? with
  | none => exact hacc
  | some a => exact hacc.put _ _

theorem Obtained.accounted (h : q.Obtained Admitted) : q.Accounted Admitted := by
  induction h with
  | empty => exact accounted_empty
  | ofList amounts => exact accounted_empty.foldl_deposit amounts
  | ofBundle b => exact accounted_ofBundle b
  | ofJsonText htext hread => exact fun _ _ ha => .inr ⟨_, _, htext, hread, ha⟩
  | deposit name a _ ih => exact ih.put _ _
  | add _ _ ih _ => exact ih.foldl_deposit _
  | sub _ _ ih _ => exact ih.foldl_withdraw _

/-- A stored amount is positive or read as it stands. If no zero is read, then quantities are the
same exactly if they have the same amount of each name. -/
theorem stored_amounts (hp : p.Obtained Admitted) (hq : q.Obtained Admitted) :
    (∀ name a, q.amounts.get? name = some a → 0 < a ∨ IsRead Admitted name a) ∧
    ((∀ name a, IsRead Admitted name a → (a == 0) = false) →
      ((p == q) = true ↔ ∀ name, (p.get name == q.get name) = true)) := by
  refine ⟨hq.accounted, fun hread => ?_⟩
  have hne {r : Quantities Float} (hr : r.Obtained Admitted) (name : String) :
      ∀ a ∈ r.amounts.get? name, (a == 0) = false := by
    intro a ha
    rcases hr.accounted name a ha with hpos | ha
    · exact Binary64.beq_zero_of_pos hpos
    · exact hread name a ha
  rw [beq_iff_rel]
  exact forall_congr' fun name => rel_iff_getD (hne hp name) (hne hq name)

def usageText : String := "\x7b\"cpus\":1.5,\"mem\":-1\x7d"

theorem exists_of_entries (text : String) (es : List (String × Float))
    (h : (ofJsonText? text : Option (Quantities Float)).map (·.amounts.entries) = some es) :
    ∃ q : Quantities Float, ofJsonText? text = some q ∧
      ∀ name, q.amounts.get? name = Table.find? name es := by
  obtain ⟨q, hread, hentries⟩ := Option.map_eq_some_iff.mp h
  exact ⟨q, hread, fun name => congrArg (Table.find? name) hentries⟩

theorem stored_amounts_usage : ∃ q : Quantities Float, ofJsonText? usageText = some q ∧
    q.Obtained (· = usageText) ∧ (q + q - q).Obtained (· = usageText) ∧
    (∀ name a, (q + q - q).amounts.get? name = some a →
      0 < a ∨ IsRead (· = usageText) name a) ∧
    ((q == q + q - q) = true ↔ ∀ name, (q.get name == (q + q - q).get name) = true) := by
  obtain ⟨q, hread, hget⟩ := exists_of_entries usageText
    [("cpus", 1.5), ("mem", -1)] (by decide +kernel)
  have hq : q.Obtained (· = usageText) := .ofJsonText rfl hread
  have hnonzero : ∀ name a, IsRead (· = usageText) name a → (a == 0) = false := by
    rintro name a ⟨-, r, rfl, hr, ha⟩
    cases hread.symm.trans hr
    rw [hget, Table.find?, Table.find?, Table.find?] at ha
    split at ha
    · cases ha
      decide +kernel
    · split at ha
      · cases ha
        decide +kernel
      · cases ha
  have hstored := stored_amounts hq ((hq.add hq).sub hq)
  exact ⟨q, hread, hq, (hq.add hq).sub hq, hstored.1, hstored.2 hnonzero⟩

/-- A zero that is read is stored. It cannot be seen in any amount, but in a comparison. -/
theorem zero_stored : ∃ q : Quantities Float, ofJsonText? "\x7b\"cpus\":0.0\x7d" = some q ∧
    q.amounts.get? "cpus" = some 0 ∧
    (∀ name, (q.get name == (∅ : Quantities Float).get name) = true) ∧
    (q == ∅) = false := by
  obtain ⟨q, hread, hget⟩ := exists_of_entries "\x7b\"cpus\":0.0\x7d"
    [("cpus", 0)] (by decide +kernel)
  have hzero : ((0 : Float) == 0) = true := by decide +kernel
  refine ⟨q, hread, hget "cpus", fun name => ?_, ?_⟩
  · rw [get, hget, Table.find?]
    split
    · exact hzero
    · exact hzero
  · rw [Bool.eq_false_iff]
    intro hsame
    have hrel := beq_iff_rel.mp hsame "cpus"
    rw [hget] at hrel
    cases hrel

end Quantities

end RoleLottery
