import Mathlib.Data.List.Forall2
import Mathlib.Tactic.Tauto
import RoleLottery.Bundle.Basic
import RoleLottery.Proofs.Value

/-!
# Adding and taking copies

All that adding or taking copies of a resource does to a bundle, whatever the arithmetic of amounts.
The first entry that accepts the resource changes or goes, or a new entry comes last. A quantity is
accepted by the entry with its name, role, id and kind, and a shared instance by the one that is
equal to it.
-/

namespace RoleLottery

deriving instance DecidableEq for Resource

deriving instance DecidableEq for Entry

deriving instance DecidableEq for Bundle

variable {α : Type}

/-! ## The entry of a resource -/

/-- What an entry is found by. -/
inductive EntryKey (α : Type)
  | quantity (name : String) (role id : Option String) (kind : Value.Kind)
  | shared (r : Resource α)
  deriving DecidableEq

namespace Resource

def key (r : Resource α) : EntryKey α :=
  if r.shared then .shared r else .quantity r.name r.role r.id r.value.kind

variable {r s t : Resource α}

theorem isMergeable_iff (hr : r.shared = false) : s.isMergeable r = true ↔ s.key = r.key := by
  cases hs : s.shared with
  | false => simp [isMergeable, key, hr, hs, Value.hasKindOf_iff, and_assoc]
  | true => simp [isMergeable, key, hr, hs]

theorem shared_eq_of_key_eq (h : s.key = r.key) : s.shared = r.shared := by
  cases hs : s.shared <;> cases hr : r.shared <;> simp_all [key]

theorem key_setValue {v : Value α} (hr : r.shared = false) (hv : v.kind = r.value.kind) :
    { r with value := v }.key = r.key := by
  simp [key, hr, hv]

theorem quantity_of_key_eq (hr : r.shared = false) (h : s.key = r.key) :
    s.name = r.name ∧ s.value.kind = r.value.kind := by
  have hs := (shared_eq_of_key_eq h).trans hr
  simp only [key, hs, hr, Bool.false_eq_true, if_false, EntryKey.quantity.injEq] at h
  exact ⟨h.1, h.2.2.2⟩

theorem isMergeable_comm (r s : Resource α) : r.isMergeable s = s.isMergeable r := by
  have hkind : r.value.hasKindOf s.value = s.value.hasKindOf r.value := by
    rw [Bool.eq_iff_iff, Value.hasKindOf_iff, Value.hasKindOf_iff, eq_comm]
  unfold isMergeable
  rw [hkind, Bool.and_comm (!r.shared), BEq.comm (a := r.name), BEq.comm (a := r.role),
    BEq.comm (a := r.id)]

theorem shared_of_isMergeable (h : r.isMergeable s = true) :
    r.shared = false ∧ s.shared = false := by
  simp only [isMergeable, Bool.and_eq_true, Bool.not_eq_true'] at h
  exact ⟨h.1.1.1.1.1, h.1.1.1.1.2⟩

theorem key_eq_of_isMergeable (h : r.isMergeable s = true) : r.key = s.key :=
  (isMergeable_iff (shared_of_isMergeable h).2).mp h

theorem isMergeable_congr (h : s.key = r.key) (t : Resource α) :
    s.isMergeable t = r.isMergeable t := by
  cases ht : t.shared with
  | false => rw [Bool.eq_iff_iff, isMergeable_iff ht, isMergeable_iff ht, h]
  | true => simp [isMergeable, ht]

theorem eq_of_shared (hr : r.shared = true) (h : s.key = r.key) : s = r := by
  have hs := (shared_eq_of_key_eq h).trans hr
  simpa [key, hr, hs] using h

variable [Amount α]

/-- Copies of `r` go to the entry of `s`. -/
def accepts (s r : Resource α) : Bool := if r.shared then s == r else s.isMergeable r

theorem accepts_of_shared (hr : r.shared = true) (s : Resource α) : s.accepts r = (s == r) :=
  if_pos hr

theorem accepts_of_unshared (hr : r.shared = false) (s : Resource α) :
    s.accepts r = s.isMergeable r :=
  if_neg (Bool.eq_false_iff.mp hr)

theorem shared_of_accepts (h : s.accepts r = true) : s.shared = r.shared := by
  cases hr : r.shared with
  | false =>
    rw [accepts_of_unshared hr] at h
    exact (shared_of_isMergeable h).1
  | true =>
    rw [accepts_of_shared hr] at h
    change s.eq r = true at h
    simp only [eq, Bool.and_eq_true, beq_iff_eq] at h
    exact h.1.2.trans hr

theorem key_eq_of_accepts (hr : r.shared = false) (h : s.accepts r = true) : s.key = r.key :=
  key_eq_of_isMergeable (accepts_of_unshared hr s ▸ h)

theorem accepts_congr_left (h : s.key = t.key) (r : Resource α) : s.accepts r = t.accepts r := by
  cases ht : t.shared with
  | false =>
    have hs := (shared_eq_of_key_eq h).trans ht
    cases hr : r.shared with
    | false => rw [accepts_of_unshared hr, accepts_of_unshared hr, isMergeable_congr h]
    | true =>
      -- A quantity accepts no instance.
      have hnone {q : Resource α} (hq : q.shared = false) : q.accepts r = false := by
        refine Bool.eq_false_iff.mpr fun haccepts => ?_
        have hshared := (shared_of_accepts haccepts).symm.trans hq
        rw [hr] at hshared
        cases hshared
      rw [hnone hs, hnone ht]
  | true => rw [eq_of_shared ht h]

theorem accepts_congr_right (h : r.key = t.key) (s : Resource α) : s.accepts r = s.accepts t := by
  cases ht : t.shared with
  | false =>
    have hr := (shared_eq_of_key_eq h).trans ht
    rw [accepts_of_unshared hr, accepts_of_unshared ht, isMergeable_comm, isMergeable_congr h,
      isMergeable_comm]
  | true => rw [eq_of_shared ht h]

end Resource

/-! ## Entries -/

namespace Entry

variable {e d : Entry α} {r : Resource α} {copies : Nat}

variable [Amount α]

/-- The entry of a resource that was not there. -/
def single (r : Resource α) (copies : Nat) : Entry α :=
  ⟨r, if r.shared then some (Amount.tally α copies) else none⟩

/-- There is a count for an instance only, and it is one that can be kept. -/
structure Counted (e : Entry α) : Prop where
  isSome_count : e.count.isSome = e.resource.shared
  tally_count : ∀ n ∈ e.count, Amount.tally α n = n

theorem Counted.single_eq (he : e.Counted) : single e.resource e.copies = e := by
  obtain ⟨r, count⟩ := e
  have hcounted : count.isSome = r.shared := he.isSome_count
  cases count with
  | none => simp_all [single]
  | some n =>
    have hn := he.tally_count n rfl
    simp_all [single, copies]

theorem Counted.count_eq (he : e.Counted) :
    e.count = if e.resource.shared then some e.copies else none := by
  obtain ⟨r, count⟩ := e
  have hcounted : count.isSome = r.shared := he.isSome_count
  cases count <;> simp_all [copies]

theorem Counted.copies_eq_one (he : e.Counted) (hshared : e.resource.shared = false) :
    e.copies = 1 := by
  rw [copies, he.count_eq, hshared]
  rfl

theorem counted_single (r : Resource α) (copies : Nat) : (single r copies).Counted := by
  cases hr : r.shared with
  | false => exact ⟨by simp [single, hr], by simp [single, hr]⟩
  | true => exact ⟨by simp [single, hr], by simp [single, hr, Amount.tally_tally]⟩

/-- The entry with copies of its instance, or a quantity, added. -/
def joined (e : Entry α) (r : Resource α) (copies : Nat) : Entry α :=
  if r.shared then { e with count := some (Amount.tally α (e.copies + copies)) }
  else { e with resource := { e.resource with value := e.resource.value.merge r.value } }

/-- The entry with copies of its instance, or a quantity, taken away; none when nothing is left. -/
def reduced? (e : Entry α) (r : Resource α) (copies : Nat) : Option (Entry α) :=
  if r.shared then
    if e.copies ≤ copies then none else some { e with count := some (e.copies - copies) }
  else
    let left := { e.resource with value := e.resource.value.remove r.value }
    if left.isEmpty then none else some { e with resource := left }

theorem joined_of_shared (hr : r.shared = true) (e : Entry α) (copies : Nat) :
    e.joined r copies = { e with count := some (Amount.tally α (e.copies + copies)) } :=
  if_pos hr

theorem joined_of_unshared (hr : r.shared = false) (e : Entry α) (copies : Nat) :
    e.joined r copies =
      { e with resource := { e.resource with value := e.resource.value.merge r.value } } :=
  if_neg (Bool.eq_false_iff.mp hr)

theorem key_joined (h : e.resource.accepts r = true) (copies : Nat) :
    (e.joined r copies).resource.key = e.resource.key := by
  cases hr : r.shared with
  | true => rw [joined_of_shared hr]
  | false =>
    rw [joined_of_unshared hr]
    exact Resource.key_setValue ((Resource.shared_of_accepts h).trans hr) (Value.kind_merge _ _)

theorem Counted.joined (he : e.Counted) (h : e.resource.accepts r = true) (copies : Nat) :
    (e.joined r copies).Counted := by
  cases hr : r.shared with
  | true =>
    rw [joined_of_shared hr]
    exact ⟨((Resource.shared_of_accepts h).trans hr).symm, by simp [Amount.tally_tally]⟩
  | false =>
    rw [joined_of_unshared hr]
    exact ⟨he.isSome_count, he.tally_count⟩

theorem reduced?_eq_some (hd : e.reduced? r copies = some d) :
    r.shared = true ∧ copies < e.copies ∧ d = { e with count := some (e.copies - copies) } ∨
    r.shared = false ∧ d.resource.isEmpty = false ∧
      d = { e with resource := { e.resource with value := e.resource.value.remove r.value } } := by
  unfold reduced? at hd
  split at hd
  · rename_i hr
    split at hd
    · cases hd
    · rename_i hless
      exact .inl ⟨hr, Nat.lt_of_not_le hless, (Option.some.inj hd).symm⟩
  · rename_i hr
    dsimp only at hd
    split at hd
    · cases hd
    · rename_i hleft
      cases hd
      exact .inr ⟨Bool.eq_false_iff.mpr hr, Bool.eq_false_iff.mpr hleft, rfl⟩

theorem key_reduced? (h : e.resource.accepts r = true) (hd : e.reduced? r copies = some d) :
    d.resource.key = e.resource.key := by
  rcases reduced?_eq_some hd with ⟨-, -, rfl⟩ | ⟨hr, -, rfl⟩
  · rfl
  · exact Resource.key_setValue ((Resource.shared_of_accepts h).trans hr) (Value.kind_remove _ _)

theorem Counted.reduced? (he : e.Counted) (h : e.resource.accepts r = true)
    (hd : e.reduced? r copies = some d) : d.Counted := by
  rcases reduced?_eq_some hd with ⟨hr, -, rfl⟩ | ⟨-, -, rfl⟩
  · have hshared := (Resource.shared_of_accepts h).trans hr
    have hcount : e.count = some e.copies := by rw [he.count_eq, if_pos hshared]
    have hfits := Amount.tally_eq_of_le (he.tally_count _ hcount) (Nat.sub_le e.copies copies)
    exact ⟨hshared.symm, by simpa using hfits⟩
  · exact ⟨he.isSome_count, he.tally_count⟩

end Entry

/-! ## Single changes -/

namespace Bundle

variable {b b' : Bundle α} {e : Entry α} {e? : Option (Entry α)}

theorem alterFirst?_eq_none {p : Entry α → Bool} {f : Entry α → Option (Entry α)}
    {es : List (Entry α)} (h : es.find? p = none) : alterFirst? p f es = none := by
  induction es with
  | nil => rfl
  | cons e es ih =>
    rw [List.find?_cons] at h
    split at h
    · exact absurd h (by simp)
    · rename_i he
      rw [alterFirst?, if_neg (by simp [he]), ih h, Option.map_none]

theorem alterFirst?_append {p : Entry α → Bool} {f : Entry α → Option (Entry α)}
    {before after : List (Entry α)} {e : Entry α} (he : p e = true)
    (hbefore : ∀ d ∈ before, p d = false) :
    alterFirst? p f (before ++ e :: after) = some (before ++ (f e).toList ++ after) := by
  induction before with
  | nil => simp [alterFirst?, he]
  | cons d before ih =>
    obtain ⟨hd, hbefore⟩ := List.forall_mem_cons.mp hbefore
    rw [List.cons_append, alterFirst?, if_neg (by simp [hd]), ih hbefore]
    rfl

/-- Lists in lock step, of which the first entries that satisfy `p` and `q` change or new ones come
last. -/
theorem forall₂_alterFirst? {β : Type} {R S : Entry α → Entry β → Prop} {p : Entry α → Bool}
    {q : Entry β → Bool} {f : Entry α → Entry α} {g : Entry β → Entry β} {es last : List (Entry α)}
    {ds last' : List (Entry β)} (h : List.Forall₂ R es ds) (hpq : ∀ e d, R e d → p e = q d)
    (hchange : ∀ e d, R e d → p e = true → S (f e) (g d)) (hkeep : ∀ e d, R e d → S e d)
    (hlast : List.Forall₂ S last last') :
    List.Forall₂ S ((alterFirst? p (fun e => some (f e)) es).getD (es ++ last))
      ((alterFirst? q (fun d => some (g d)) ds).getD (ds ++ last')) := by
  induction h with
  | nil => exact hlast
  | @cons e d es ds hed h ih =>
    rw [alterFirst?, alterFirst?, ← hpq e d hed]
    split
    · rename_i hp
      exact .cons (hchange e d hed hp) (h.imp hkeep)
    · simp only [List.cons_append, Option.getD_map]
      exact .cons (hkeep e d hed) ih

/-- The entry `e` of `b` gives way to another one or is dropped. -/
def Swaps (b : Bundle α) (e : Entry α) (e? : Option (Entry α)) (b' : Bundle α) : Prop :=
  ∃ before after, b.entries = before ++ e :: after ∧ b'.entries = before ++ e?.toList ++ after

theorem Swaps.mem (h : Swaps b e e? b') {d : Entry α} (hd : d ∈ b'.entries) :
    d ∈ b.entries ∨ d ∈ e? := by
  obtain ⟨before, after, hold, hnew⟩ := h
  rw [hnew, List.mem_append, List.mem_append, Option.mem_toList] at hd
  rw [hold, List.mem_append, List.mem_cons]
  tauto

theorem Swaps.mem_old (h : Swaps b e e? b') : e ∈ b.entries := by
  obtain ⟨before, after, hold, -⟩ := h
  rw [hold]
  exact List.mem_append_right _ List.mem_cons_self

theorem swaps_alterFirst? {p : Entry α → Bool} (f : Entry α → Option (Entry α)) (b : Bundle α)
    (h : b.entries.find? p = some e) (last : List (Entry α)) :
    Swaps b e (f e) ⟨(alterFirst? p f b.entries).getD last⟩ := by
  obtain ⟨he, before, after, hentries, hbefore⟩ := List.find?_eq_some_iff_append.mp h
  refine ⟨before, after, hentries, ?_⟩
  rw [hentries, alterFirst?_append he (by simpa using hbefore), Option.getD_some]

theorem getD_alterFirst?_of_none {p : Entry α → Bool} {f : Entry α → Option (Entry α)}
    {es last : List (Entry α)} (h : es.find? p = none) : (alterFirst? p f es).getD last = last := by
  rw [alterFirst?_eq_none h, Option.getD_none]

/-! ## Adding and taking away -/

variable [Amount α] {r : Resource α} {copies : Nat}

theorem putCopies_of_nothing (b : Bundle α)
    (h : copies = 0 ∨ r.shared = false ∧ r.isEmpty = true) : b.putCopies r copies = b := by
  unfold putCopies
  rcases h with hcopies | ⟨hr, hempty⟩
  · rw [if_pos hcopies]
  · simp [hr, hempty]

theorem putCopies_eq (b : Bundle α) (hcopies : copies ≠ 0)
    (hempty : r.shared = false → r.isEmpty = false) :
    b.putCopies r copies =
      ⟨(alterFirst? (·.resource.accepts r) (fun e => some (e.joined r copies)) b.entries).getD
        (b.entries ++ [.single r copies])⟩ := by
  unfold putCopies
  rw [if_neg hcopies]
  cases hr : r.shared with
  | true => simp [Resource.accepts, Entry.joined, Entry.single, hr]
  | false => simp [Resource.accepts, Entry.joined, Entry.single, hr, hempty hr]

theorem takeCopies_eq (b : Bundle α) (r : Resource α) (copies : Nat) :
    b.takeCopies r copies =
      ⟨(alterFirst? (·.resource.accepts r) (·.reduced? r copies) b.entries).getD b.entries⟩ := by
  unfold takeCopies
  cases hr : r.shared with
  | true => simp [Resource.accepts, Entry.reduced?, hr]
  | false => simp [Resource.accepts, Entry.reduced?, hr]

theorem putCopies_of_other (hcopies : copies ≠ 0) (hempty : r.shared = false → r.isEmpty = false)
    (hother : ∀ e ∈ b.entries, e.resource.accepts r = false) :
    b.putCopies r copies = ⟨b.entries ++ [.single r copies]⟩ := by
  rw [putCopies_eq b hcopies hempty, getD_alterFirst?_of_none]
  simpa using hother

section

variable {before after : List (Entry α)} (haccepts : e.resource.accepts r = true)
  (hbefore : ∀ d ∈ before, d.resource.accepts r = false)

include haccepts hbefore

theorem putCopies_append (hcopies : copies ≠ 0) (hempty : r.shared = false → r.isEmpty = false) :
    putCopies ⟨before ++ e :: after⟩ r copies = ⟨before ++ e.joined r copies :: after⟩ := by
  rw [putCopies_eq _ hcopies hempty, alterFirst?_append haccepts hbefore]
  simp

theorem takeCopies_append (copies : Nat) :
    takeCopies ⟨before ++ e :: after⟩ r copies =
      ⟨before ++ (e.reduced? r copies).toList ++ after⟩ := by
  rw [takeCopies_eq, alterFirst?_append haccepts hbefore]
  rfl

end

/-- What is put in is nothing, or it is a new last entry that no other accepts, or it joins the one
that accepts it. -/
theorem putCopies_outcome (b : Bundle α) (r : Resource α) (copies : Nat) :
    b.putCopies r copies = b ∨
      (copies ≠ 0 ∧ (r.shared = false → r.isEmpty = false)) ∧
      ((∀ e ∈ b.entries, e.resource.accepts r = false) ∧
          b.putCopies r copies = ⟨b.entries ++ [.single r copies]⟩ ∨
        ∃ e, e.resource.accepts r = true ∧
          Swaps b e (some (e.joined r copies)) (b.putCopies r copies)) := by
  by_cases hnothing : copies = 0 ∨ r.shared = false ∧ r.isEmpty = true
  · exact .inl (putCopies_of_nothing b hnothing)
  · obtain ⟨hcopies, hempty⟩ := not_or.mp hnothing
    have hempty : r.shared = false → r.isEmpty = false := by simpa using hempty
    refine .inr ⟨⟨hcopies, hempty⟩, ?_⟩
    rw [putCopies_eq b hcopies hempty]
    cases h : b.entries.find? fun e => e.resource.accepts r with
    | none =>
      refine .inl ⟨by simpa using List.find?_eq_none.mp h, ?_⟩
      rw [getD_alterFirst?_of_none h]
    | some e =>
      have haccepts := List.find?_some h
      exact .inr ⟨e, haccepts, swaps_alterFirst? _ b h _⟩

theorem takeCopies_outcome (b : Bundle α) (r : Resource α) (copies : Nat) :
    b.takeCopies r copies = b ∨
      ∃ e, e.resource.accepts r = true ∧
        Swaps b e (e.reduced? r copies) (b.takeCopies r copies) := by
  rw [takeCopies_eq]
  cases h : b.entries.find? fun e => e.resource.accepts r with
  | none => exact .inl (congrArg Bundle.mk (getD_alterFirst?_of_none h))
  | some e =>
    have haccepts := List.find?_some h
    exact .inr ⟨e, haccepts, swaps_alterFirst? _ b h _⟩

/-! ## Compositions -/

variable {Admitted : Resource α → Prop}

/-- The bundles that can be made when only admitted resources are put in or taken away. -/
inductive Composed (Admitted : Resource α → Prop) : Bundle α → Prop
  | empty : Composed Admitted {}
  | putCopies {b : Bundle α} {r : Resource α} (copies : Nat) :
    Composed Admitted b → Admitted r → Composed Admitted (b.putCopies r copies)
  | takeCopies {b : Bundle α} {r : Resource α} (copies : Nat) :
    Composed Admitted b → Admitted r → Composed Admitted (b.takeCopies r copies)
  | add {b c : Bundle α} : Composed Admitted b → Composed Admitted c → Composed Admitted (b + c)
  | sub {b c : Bundle α} : Composed Admitted b → Composed Admitted c → Composed Admitted (b - c)
  | filter {b : Bundle α} (p : Resource α → Bool) :
    Composed Admitted b → Composed Admitted (b.filter p)

theorem composed_ofList {rs : List (Resource α)} (h : ∀ r ∈ rs, Admitted r) :
    (ofList rs).Composed Admitted :=
  List.foldlRecOn (motive := Composed Admitted) rs _ .empty fun _ hacc r hr =>
    hacc.putCopies 1 (h r hr)

end Bundle

end RoleLottery
