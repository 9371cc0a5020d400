import RoleLottery.Proofs.Bundle.Made

/-!
# Withdrawals

Whatever the arithmetic of amounts, a bundle has one entry for each quantity, and a bundle that
contains another one has, at each quantity of the other, an entry that contains it. Entries that are
looked for later are not changed by those that are taken away before.
-/

namespace RoleLottery

variable {α : Type}

namespace Bundle

variable {b c : Bundle α} {r s : Resource α} {copies : Nat} {e : Entry α} {P : Value α → Prop}

/-! ## One entry for each quantity -/

def Unrepeated (b : Bundle α) : Prop :=
  b.entries.Pairwise fun d e => d.resource.isMergeable e.resource = false

theorem Unrepeated.find?_eq_some (h : b.Unrepeated) (he : e ∈ b.entries)
    (hr : e.resource.isMergeable r = true) :
    b.entries.find? (fun e => e.resource.isMergeable r) = some e := by
  obtain ⟨before, after, hentries⟩ := List.append_of_mem he
  rw [Unrepeated, hentries, List.pairwise_append] at h
  refine List.find?_eq_some_iff_append.mpr ⟨hr, before, after, hentries, fun d hd => ?_⟩
  have hapart := h.2.2 d hd e List.mem_cons_self
  rw [Resource.isMergeable_comm, Resource.isMergeable_congr (Resource.key_eq_of_isMergeable hr),
    Resource.isMergeable_comm] at hapart
  simpa using hapart

def Values (P : Value α → Prop) (b : Bundle α) : Prop := ∀ e ∈ b.entries, P e.resource.value

theorem values_empty : Values P {} := fun _ he => absurd he List.not_mem_nil

variable [Amount α]

theorem Tidy.unrepeated (h : b.Tidy) : b.Unrepeated := by
  refine h.distinct.imp fun {d e} hapart => ?_
  cases he : e.resource.shared with
  | true => simp [Resource.isMergeable, he]
  | false => rwa [← Resource.accepts_of_unshared he]

theorem Values.putCopies (h : b.Values P) (hr : P r.value)
    (hmerge : ∀ v, P v → P (v.merge r.value)) (copies : Nat) : (b.putCopies r copies).Values P := by
  have hall : b.All fun r => P r.value := h
  exact hall.putCopies (fun _ => hr) (fun _ hs _ _ _ => hmerge _ hs) copies

theorem Values.takeCopies (h : b.Values P) (hremove : ∀ v, P v → P (v.remove r.value))
    (copies : Nat) : (b.takeCopies r copies).Values P := by
  have hall : b.All fun r => P r.value := h
  exact hall.takeCopies (fun _ hs _ _ _ => hremove _ hs) copies

theorem Values.add (h : b.Values P) (hc : c.Values P) (hmerge : ∀ v w, P v → P w → P (v.merge w)) :
    (b + c).Values P :=
  List.foldlRecOn (motive := Values P) _ _ h fun _ hacc e he =>
    hacc.putCopies (hc e he) (fun v hv => hmerge v _ hv (hc e he)) _

theorem Values.sub (h : b.Values P) (c : Bundle α) (hremove : ∀ v w, P v → P (v.remove w)) :
    (b - c).Values P :=
  List.foldlRecOn (motive := Values P) _ _ h fun _ hacc _ _ =>
    hacc.takeCopies (fun v hv => hremove v _ hv) _

/-! ## What a bundle contains -/

/-- Another quantity that is taken away changes nothing for this one. -/
theorem holdsQuantity_of_takeCopies (hapart : r.isMergeable s = false)
    (h : (b.takeCopies r copies).holdsQuantity s = true) : b.holdsQuantity s = true := by
  rcases takeCopies_outcome b r copies with hsame | ⟨e, haccepts, hswap⟩
  · rwa [hsame] at h
  · simp only [holdsQuantity, Bool.or_eq_true, List.any_eq_true, Bool.and_eq_true] at h ⊢
    refine h.imp_right fun hheld => ?_
    obtain ⟨d, hd, hmerge, hcontains⟩ := hheld
    rcases hswap.mem hd with hd | hd
    · exact ⟨d, hd, hmerge, hcontains⟩
    have hkey := Entry.key_reduced? haccepts hd
    rcases Entry.reduced?_eq_some hd with ⟨-, -, rfl⟩ | ⟨hr, -, -⟩
    · exact ⟨e, hswap.mem_old, hmerge, hcontains⟩
    · -- The changed entry still has the key of `r`, under which `s` is not found.
      rw [Resource.isMergeable_congr (hkey.trans (Resource.key_eq_of_accepts hr haccepts)),
        hapart] at hmerge
      cases hmerge

theorem holdsQuantity_of_containsAll {es : List (Entry α)}
    (hes : es.Pairwise fun d e => d.resource.isMergeable e.resource = false)
    (h : b.containsAll es = true) :
    ∀ e ∈ es, e.resource.shared = false → b.holdsQuantity e.resource = true := by
  induction es generalizing b with
  | nil => exact fun _ he => absurd he List.not_mem_nil
  | cons d es ih =>
    obtain ⟨hd, hes⟩ := List.pairwise_cons.mp hes
    rw [containsAll, Bool.and_eq_true] at h
    intro e he hshared
    rcases List.mem_cons.mp he with rfl | he
    · simpa [holds, hshared] using h.1
    · exact holdsQuantity_of_takeCopies (hd e he) (ih hes h.2 e he hshared)

/-- The amount under the name, role and id of a scalar quantity, zero when there is none. -/
def amountAt (b : Bundle α) (r : Resource α) : α :=
  ((b.entries.find? fun e => e.resource.isMergeable r).bind (·.resource.value.amount?)).getD
    Amount.zero

/-- Of each amount as many thousandths are held, or it has none. -/
theorem Unrepeated.thousandths_le (h : b.Unrepeated) (hc : c.Unrepeated)
    (hcontains : b.contains c = true) (he : e ∈ c.entries) (hshared : e.resource.shared = false)
    {a : α} (hvalue : e.resource.value = .scalar a) :
    Amount.thousandths a ≤ 0 ∨
      Amount.thousandths a ≤ Amount.thousandths (b.amountAt e.resource) := by
  have hheld := holdsQuantity_of_containsAll hc hcontains e he hshared
  simp only [holdsQuantity, Bool.or_eq_true, List.any_eq_true, Bool.and_eq_true] at hheld
  refine hheld.imp (fun hempty => ?_) fun hheld => ?_
  · simpa [Resource.isEmpty, hvalue, Value.isEmpty] using hempty
  · obtain ⟨d, hd, hmerge, hfits⟩ := hheld
    rw [amountAt, h.find?_eq_some hd hmerge]
    rw [hvalue] at hfits
    cases hscalar : d.resource.value with
    | scalar held => simpa [hscalar, Value.contains, Value.amount?] using hfits
    | ranges is => simp [hscalar, Value.contains] at hfits
    | set labels => simp [hscalar, Value.contains] at hfits

end Bundle

end RoleLottery
