import Mathlib.Algebra.Order.BigOperators.Group.List
import Mathlib.Algebra.Order.Ring.Int
import Mathlib.Data.List.Sort
import RoleLottery.Table

/-!
# Look-ups decide tables

Two tables with the same look-ups are equal, so whatever is said of look-ups is said of tables.
-/

namespace RoleLottery.Table

variable {β γ : Type}

theorem find?_eq_some_iff {es : List (String × β)} (h : es.Pairwise fun e f => e.1 < f.1)
    (key : String) (value : β) : find? key es = some value ↔ (key, value) ∈ es := by
  induction es with
  | nil => simp [find?]
  | cons e es ih =>
    obtain ⟨he, hes⟩ := List.pairwise_cons.mp h
    simp only [find?, List.mem_cons]
    split
    · rename_i hkey
      constructor
      · intro hv
        exact .inl (Prod.ext hkey.symm (Option.some.inj hv).symm)
      · rintro (rfl | hmem)
        · rfl
        · exact absurd (he _ hmem) (by simp [hkey])
    · rename_i hkey
      rw [ih hes]
      constructor
      · exact .inr
      · rintro (rfl | hmem)
        · exact absurd rfl hkey
        · exact hmem

theorem find?_eq_none_of_lt {es : List (String × β)} {key : String} (h : ∀ e ∈ es, key < e.1) :
    find? key es = none := by
  induction es with
  | nil => rfl
  | cons e es ih =>
    obtain ⟨he, hes⟩ := List.forall_mem_cons.mp h
    have hne : e.1 ≠ key := by
      intro hkey
      rw [hkey] at he
      exact String.lt_irrefl key he
    rw [find?, if_neg hne]
    exact ih hes

theorem get?_eq_some_iff (t : Table β) (key : String) (value : β) :
    t.get? key = some value ↔ (key, value) ∈ t.entries :=
  find?_eq_some_iff t.sorted key value

@[simp]
theorem get?_emptyCollection (key : String) : (∅ : Table β).get? key = none := rfl

theorem ext_get? {s t : Table β} (h : ∀ key, s.get? key = t.get? key) : s = t := by
  have hmem (e : String × β) : e ∈ s.entries ↔ e ∈ t.entries := by
    rw [← get?_eq_some_iff s e.1 e.2, ← get?_eq_some_iff t e.1 e.2, h]
  have hentries : s.entries = t.entries := by
    have : Std.Irrefl fun e f : String × β => e.1 < f.1 := ⟨fun e => String.lt_irrefl e.1⟩
    exact s.sorted.eq_of_mem_iff t.sorted hmem
  cases s
  cases t
  simp_all

theorem first_key_eq {R : β → γ → Prop} {e : String × β} {es : List (String × β)}
    {f : String × γ} {fs : List (String × γ)} (hes : ∀ d ∈ es, e.1 < d.1)
    (hfs : ∀ d ∈ fs, f.1 < d.1)
    (h : ∀ key, Option.Rel R (find? key (e :: es)) (find? key (f :: fs))) : e.1 = f.1 := by
  rcases Std.lt_trichotomy e.1 f.1 with hlt | heq | hlt
  · have hnone : find? e.1 (f :: fs) = none := find?_eq_none_of_lt <|
      List.forall_mem_cons.mpr ⟨hlt, fun d hd => String.lt_trans hlt (hfs d hd)⟩
    have hrel := h e.1
    rw [hnone, find?, if_pos rfl] at hrel
    cases hrel
  · exact heq
  · have hnone : find? f.1 (e :: es) = none := find?_eq_none_of_lt <|
      List.forall_mem_cons.mpr ⟨hlt, fun d hd => String.lt_trans hlt (hes d hd)⟩
    have hrel := h f.1
    rw [hnone, find?, if_pos rfl] at hrel
    cases hrel

theorem rel_find? {R : β → γ → Prop} {es : List (String × β)} {fs : List (String × γ)}
    (h : List.Forall₂ (fun e f => e.1 = f.1 ∧ R e.2 f.2) es fs) (key : String) :
    Option.Rel R (find? key es) (find? key fs) := by
  induction h with
  | nil => exact .none
  | cons hef _ ih =>
    obtain ⟨hkey, hvalue⟩ := hef
    rw [find?, find?, hkey]
    split
    · exact .some hvalue
    · exact ih

theorem forall₂_of_rel_find? {R : β → γ → Prop} {es : List (String × β)}
    {fs : List (String × γ)} (hes : es.Pairwise fun e f => e.1 < f.1)
    (hfs : fs.Pairwise fun e f => e.1 < f.1)
    (h : ∀ key, Option.Rel R (find? key es) (find? key fs)) :
    List.Forall₂ (fun e f => e.1 = f.1 ∧ R e.2 f.2) es fs := by
  induction es generalizing fs with
  | nil =>
    cases fs with
    | nil => exact .nil
    | cons f fs =>
      have hrel := h f.1
      rw [find?, find?, if_pos rfl] at hrel
      cases hrel
  | cons e es ih =>
    cases fs with
    | nil =>
      have hrel := h e.1
      rw [find?, find?, if_pos rfl] at hrel
      cases hrel
    | cons f fs =>
      obtain ⟨he, hes⟩ := List.pairwise_cons.mp hes
      obtain ⟨hf, hfs⟩ := List.pairwise_cons.mp hfs
      have hkey := first_key_eq he hf h
      have hvalue := h e.1
      rw [find?, find?, if_pos rfl, if_pos hkey.symm] at hvalue
      refine .cons ⟨hkey, by cases hvalue; assumption⟩ (ih hes hfs fun key => ?_)
      by_cases hk : e.1 = key
      · -- The keys ascend, so the first one does not come again.
        rw [find?_eq_none_of_lt (hk ▸ he), find?_eq_none_of_lt (hk ▸ hkey ▸ hf)]
        exact .none
      · have hrest := h key
        rwa [find?, find?, if_neg hk, if_neg (hkey ▸ hk)] at hrest

/-- Tables are related entry by entry when they are related key by key. -/
theorem forall₂_entries_iff {R : β → γ → Prop} {s : Table β} {t : Table γ} :
    List.Forall₂ (fun e f => e.1 = f.1 ∧ R e.2 f.2) s.entries t.entries ↔
      ∀ key, Option.Rel R (s.get? key) (t.get? key) :=
  ⟨rel_find?, forall₂_of_rel_find? s.sorted t.sorted⟩

theorem contains_of_get?_eq_some {t : Table β} {key : String} {value : β}
    (h : t.get? key = some value) : t.contains key = true := by
  rw [contains, h, Option.isSome_some]

theorem contains_of_get?_eq_none {t : Table β} {key : String} (h : t.get? key = none) :
    t.contains key = false := by
  rw [contains, h, Option.isSome_none]

theorem mem_values {t : Table β} {value : β} :
    value ∈ t.values ↔ ∃ key, t.get? key = some value := by
  simp [values, get?_eq_some_iff]

def map (f : β → γ) (t : Table β) : Table γ :=
  ⟨t.entries.map fun e => (e.1, f e.2), List.pairwise_map.mpr t.sorted⟩

@[simp]
theorem get?_map (f : β → γ) (t : Table β) (key : String) :
    (t.map f).get? key = (t.get? key).map f := by
  have hfind (es : List (String × β)) :
      find? key (es.map fun e => (e.1, f e.2)) = (find? key es).map f := by
    induction es with
    | nil => rfl
    | cons e es ih =>
      simp only [List.map_cons, find?, ih]
      split <;> rfl
  exact hfind t.entries

@[simp]
theorem size_map (f : β → γ) (t : Table β) : (t.map f).size = t.size := by
  simp [map, size]

@[simp]
theorem values_map (f : β → γ) (t : Table β) : (t.map f).values = t.values.map f := by
  simp [map, values]

theorem nodup_keys (t : Table β) : (t.entries.map (·.1)).Nodup := by
  refine List.pairwise_map.mpr (t.sorted.imp fun hlt heq => ?_)
  exact String.lt_irrefl _ (heq ▸ hlt)

/-! ## Sums over all values -/

theorem perm_erase {t : Table β} {key : String} {value : β} (h : t.get? key = some value) :
    t.entries.Perm ((key, value) :: (t.erase key).entries) := by
  have hnodup (u : Table β) : u.entries.Nodup := List.Nodup.of_map _ u.nodup_keys
  have hnew : (key, value) ∉ (t.erase key).entries := by
    rw [← get?_eq_some_iff, get?_erase]
    simp
  apply (List.perm_ext_iff_of_nodup (hnodup t) (List.nodup_cons.mpr ⟨hnew, hnodup _⟩)).mpr
  intro e
  rw [List.mem_cons, ← get?_eq_some_iff (t.erase key) e.1 e.2, get?_erase,
    ← get?_eq_some_iff t e.1 e.2]
  by_cases hkey : key = e.1
  · subst hkey
    simp [h, Prod.ext_iff, eq_comm]
  · simp [hkey, Prod.ext_iff, eq_comm]

theorem erase_of_get?_eq_none {t : Table β} {key : String} (h : t.get? key = none) :
    t.erase key = t := by
  apply ext_get?
  intro other
  rw [get?_erase]
  split
  · rename_i hkey
    rw [← hkey, h]
  · rfl

theorem erase_insert (t : Table β) (key : String) (value : β) :
    (t.insert key value).erase key = t.erase key := by
  apply ext_get?
  intro other
  rw [get?_erase, get?_erase, get?_insert]
  split <;> rfl

theorem insert_insert (t : Table β) (key : String) (old new : β) :
    (t.insert key old).insert key new = t.insert key new := by
  apply ext_get?
  intro other
  rw [get?_insert, get?_insert, get?_insert]
  split <;> rfl

theorem insert_of_get?_eq_some {t : Table β} {key : String} {value : β}
    (h : t.get? key = some value) : t.insert key value = t := by
  apply ext_get?
  intro other
  rw [get?_insert]
  split
  · rename_i hkey
    rw [← hkey, h]
  · rfl

theorem sum_erase (t : Table β) (key : String) (f : β → Int) :
    ((t.erase key).values.map f).sum + ((t.get? key).map f).getD 0 = (t.values.map f).sum := by
  cases h : t.get? key with
  | none =>
    rw [erase_of_get?_eq_none h, Option.map_none, Option.getD_none]
    omega
  | some value =>
    have hsum : (t.values.map f).sum = f value + ((t.erase key).values.map f).sum := by
      have hperm := ((perm_erase h).map (·.2)).map f
      rw [values, hperm.sum_eq, List.map_cons, List.map_cons, List.sum_cons]
      rfl
    rw [hsum, Option.map_some, Option.getD_some]
    omega

theorem sum_insert (t : Table β) (key : String) (value : β) (f : β → Int) :
    ((t.insert key value).values.map f).sum + ((t.get? key).map f).getD 0 =
      (t.values.map f).sum + f value := by
  have hnew := (t.insert key value).sum_erase key f
  have hold := t.sum_erase key f
  rw [erase_insert, get?_insert, if_pos rfl, Option.map_some, Option.getD_some] at hnew
  omega

theorem le_sum_of_get?_eq_some {t : Table β} {key : String} {value : β} {f : β → Int}
    (h : t.get? key = some value) (hf : ∀ v ∈ t.values, 0 ≤ f v) :
    f value ≤ (t.values.map f).sum := by
  have hsum := t.sum_erase key f
  have hrest : 0 ≤ ((t.erase key).values.map f).sum := by
    apply List.sum_nonneg
    intro a ha
    obtain ⟨v, hv, rfl⟩ := List.mem_map.mp ha
    obtain ⟨other, hother⟩ := mem_values.mp hv
    rw [get?_erase] at hother
    split at hother
    · exact absurd hother (by simp)
    · exact hf v (mem_values.mpr ⟨other, hother⟩)
  rw [h, Option.map_some, Option.getD_some] at hsum
  omega

end RoleLottery.Table
