import RoleLottery.Bundle.Json
import RoleLottery.Proofs.Bundle.Copies

/-!
# Bundles as they come about

The bundles that can be made of some resources by reading, adding, subtracting and filtering. They
never have two entries for one resource, and only instances are counted. So adding the entries of
such a bundle one after the other makes it again.
-/

namespace RoleLottery.Bundle

variable {α : Type} [Amount α] {Admitted : Resource α → Prop} {b b' c : Bundle α} {e : Entry α}
  {e? : Option (Entry α)} {r : Resource α} {copies : Nat}

/-- The bundles that can be made when only admitted resources are put in. Anything may be taken
away. -/
inductive Made (Admitted : Resource α → Prop) : Bundle α → Prop
  | empty : Made Admitted {}
  | putCopies {b : Bundle α} {r : Resource α} (copies : Nat) :
    Made Admitted b → Admitted r → Made Admitted (b.putCopies r copies)
  | takeCopies {b : Bundle α} (r : Resource α) (copies : Nat) :
    Made Admitted b → Made Admitted (b.takeCopies r copies)
  | add {b c : Bundle α} : Made Admitted b → Made Admitted c → Made Admitted (b + c)
  | sub {b : Bundle α} (c : Bundle α) : Made Admitted b → Made Admitted (b - c)
  | filter {b : Bundle α} (p : Resource α → Bool) : Made Admitted b → Made Admitted (b.filter p)

theorem made_ofList {rs : List (Resource α)} (h : ∀ r ∈ rs, Admitted r) :
    (ofList rs).Made Admitted :=
  List.foldlRecOn (motive := Made Admitted) rs _ .empty fun _ hacc r hr => hacc.putCopies 1 (h r hr)

theorem made_ofEntries {es : List (Entry α)} (h : ∀ e ∈ es, Admitted e.resource) :
    (ofEntries es).Made Admitted :=
  List.foldlRecOn (motive := Made Admitted) es _ .empty fun _ hacc e he =>
    hacc.putCopies _ (h e he)

theorem made_of_ofJsonText? [JsonNumber α] {text : String}
    (h : ∀ j es, Json.parse? text = some j → j.list? Entry.ofJson? = some es →
      ∀ e ∈ es, Admitted e.resource)
    (hb : ofJsonText? text = some b) : b.Made Admitted := by
  simp only [ofJsonText?, Option.bind_eq_bind, Option.bind_eq_some_iff,
    Option.map_eq_some_iff] at hb
  obtain ⟨j, hj, es, hes, rfl⟩ := hb
  exact made_ofEntries (h j es hj hes)

/-! ## Properties of all resources -/

/-- Merging and removing keep a property of quantities. -/
structure Keeps (P : Resource α → Prop) : Prop where
  merge {s r : Resource α} : P s → P r → s.shared = false → s.key = r.key →
    P { s with value := s.value.merge r.value }
  remove {s r : Resource α} : P s → s.shared = false →
    Resource.isEmpty { s with value := s.value.remove r.value } = false →
    P { s with value := s.value.remove r.value }

def All (P : Resource α → Prop) (b : Bundle α) : Prop := ∀ e ∈ b.entries, P e.resource

variable {P : Resource α → Prop}

theorem All.putCopies (hb : b.All P) (hr : (r.shared = false → r.isEmpty = false) → P r)
    (hmerge : ∀ s, P s → P r → s.shared = false → s.key = r.key →
      P { s with value := s.value.merge r.value }) (copies : Nat) :
    (b.putCopies r copies).All P := by
  rcases putCopies_outcome b r copies with hsame | ⟨⟨-, hempty⟩, ⟨-, hlast⟩ | ⟨e, haccepts, hswap⟩⟩
  · rwa [hsame]
  · intro d hd
    rw [hlast, List.mem_append, List.mem_singleton] at hd
    rcases hd with hd | rfl
    · exact hb d hd
    · exact hr hempty
  · intro d hd
    have he := hb e hswap.mem_old
    rcases hswap.mem hd with hd | hd
    · exact hb d hd
    cases hd
    cases hshared : r.shared with
    | true => rwa [Entry.joined_of_shared hshared]
    | false =>
      rw [Entry.joined_of_unshared hshared]
      exact hmerge _ he (hr hempty) ((Resource.shared_of_accepts haccepts).trans hshared)
        (Resource.key_eq_of_accepts hshared haccepts)

theorem All.takeCopies (hb : b.All P)
    (hremove : ∀ s, P s → s.shared = false → r.shared = false →
      Resource.isEmpty { s with value := s.value.remove r.value } = false →
      P { s with value := s.value.remove r.value }) (copies : Nat) :
    (b.takeCopies r copies).All P := by
  rcases takeCopies_outcome b r copies with hsame | ⟨e, haccepts, hswap⟩
  · rwa [hsame]
  · intro d hd
    have he := hb e hswap.mem_old
    rcases hswap.mem hd with hd | hd
    · exact hb d hd
    rcases Entry.reduced?_eq_some hd with ⟨-, -, rfl⟩ | ⟨hr, hleft, rfl⟩
    · exact he
    · exact hremove _ he ((Resource.shared_of_accepts haccepts).trans hr) hr hleft

/-- What is put in with content has the property, and so has all that is made of it. -/
theorem Made.all (h : b.Made Admitted) (hP : Keeps P)
    (hput : ∀ r, Admitted r → (r.shared = false → r.isEmpty = false) → P r) : b.All P := by
  induction h with
  | empty => exact fun _ he => absurd he List.not_mem_nil
  | putCopies copies _ hr ih => exact ih.putCopies (hput _ hr) (fun _ => hP.merge) copies
  | takeCopies r copies _ ih =>
    exact ih.takeCopies (fun _ hs hshared _ => hP.remove hs hshared) copies
  | @add _ c _ _ ihb ihc =>
    exact List.foldlRecOn (motive := All P) c.entries _ ihb fun _ hacc e he =>
      hacc.putCopies (fun _ => ihc e he) (fun _ => hP.merge) _
  | sub c _ ih =>
    exact List.foldlRecOn (motive := All P) c.entries _ ih fun _ hacc _ _ =>
      hacc.takeCopies (fun _ hs hshared _ => hP.remove hs hshared) _
  | filter p _ ih => exact fun e he => ih e (List.mem_filter.mp he).1

theorem Made.isEmpty (h : b.Made Admitted)
    (hadmitted : ∀ r, Admitted r → r.shared = false ∧ r.isEmpty = true) : b.isEmpty = true := by
  have hkeeps : Keeps fun _ : Resource α => False := ⟨fun hs _ _ _ => hs, fun hs _ _ => hs⟩
  have hnone : b.All fun _ => False := by
    apply h.all hkeeps
    intro r hr hcontent
    obtain ⟨hshared, hempty⟩ := hadmitted r hr
    simp [hcontent hshared] at hempty
  rw [Bundle.isEmpty, List.isEmpty_iff, List.eq_nil_iff_forall_not_mem]
  exact hnone

/-! ## One entry for each resource -/

/-- No entry accepts the resource of a later one. -/
def Distinct (b : Bundle α) : Prop :=
  b.entries.Pairwise fun d e => d.resource.accepts e.resource = false

theorem Distinct.swaps (h : b.Distinct) (hswap : Swaps b e e? b')
    (hkey : ∀ d ∈ e?, d.resource.key = e.resource.key) : b'.Distinct := by
  obtain ⟨before, after, hold, hnew⟩ := hswap
  unfold Distinct at h ⊢
  rw [hold] at h
  rw [hnew]
  cases e? with
  | none =>
    rw [Option.toList_none, List.append_nil]
    exact h.sublist ((List.Sublist.refl before).append (List.sublist_cons_self e after))
  | some d =>
    have hleft := Resource.accepts_congr_left (hkey d rfl)
    have hright := Resource.accepts_congr_right (hkey d rfl)
    simpa [List.pairwise_append, hleft, hright] using h

/-- Each resource has one entry, and instances are counted. -/
structure Tidy (b : Bundle α) : Prop where
  distinct : b.Distinct
  counted : ∀ e ∈ b.entries, e.Counted

theorem tidy_empty : Tidy (α := α) {} := ⟨.nil, fun _ he => absurd he List.not_mem_nil⟩

theorem Tidy.filter (h : b.Tidy) (p : Resource α → Bool) : (b.filter p).Tidy :=
  ⟨h.distinct.sublist List.filter_sublist, fun e he => h.counted e (List.mem_filter.mp he).1⟩

theorem Tidy.putCopies (h : b.Tidy) (r : Resource α) (copies : Nat) :
    (b.putCopies r copies).Tidy := by
  rcases putCopies_outcome b r copies with hsame | ⟨-, ⟨hother, hlast⟩ | ⟨e, haccepts, hswap⟩⟩
  · rwa [hsame]
  · rw [hlast]
    refine ⟨?_, fun e he => ?_⟩
    · simpa [Distinct, List.pairwise_append, Entry.single] using And.intro h.distinct hother
    · rcases List.mem_append.mp he with he | he
      · exact h.counted e he
      · rw [List.mem_singleton.mp he]
        exact Entry.counted_single r copies
  · refine ⟨h.distinct.swaps hswap fun d hd => ?_, fun d hd => ?_⟩
    · cases hd
      exact Entry.key_joined haccepts copies
    · rcases hswap.mem hd with hd | hd
      · exact h.counted d hd
      · cases hd
        exact (h.counted e hswap.mem_old).joined haccepts copies

theorem Tidy.takeCopies (h : b.Tidy) (r : Resource α) (copies : Nat) :
    (b.takeCopies r copies).Tidy := by
  rcases takeCopies_outcome b r copies with hsame | ⟨e, haccepts, hswap⟩
  · rwa [hsame]
  · refine ⟨h.distinct.swaps hswap fun d hd => Entry.key_reduced? haccepts hd, fun d hd => ?_⟩
    rcases hswap.mem hd with hd | hd
    · exact h.counted d hd
    · exact (h.counted e hswap.mem_old).reduced? haccepts hd

theorem Tidy.add (h : b.Tidy) (c : Bundle α) : (b + c).Tidy :=
  List.foldlRecOn (motive := Tidy) c.entries _ h fun _ hacc _ _ => hacc.putCopies _ _

theorem Tidy.sub (h : b.Tidy) (c : Bundle α) : (b - c).Tidy :=
  List.foldlRecOn (motive := Tidy) c.entries _ h fun _ hacc _ _ => hacc.takeCopies _ _

theorem Made.tidy (h : b.Made Admitted) : b.Tidy := by
  induction h with
  | empty => exact tidy_empty
  | putCopies copies _ _ ih => exact ih.putCopies _ copies
  | takeCopies r copies _ ih => exact ih.takeCopies r copies
  | add _ _ ih _ => exact ih.add _
  | sub c _ ih => exact ih.sub c
  | filter p _ ih => exact ih.filter p

theorem putCopies_stored (he : e.Counted)
    (hcontent : e.resource.shared = false → e.resource.isEmpty = false)
    (hother : ∀ d ∈ b.entries, d.resource.accepts e.resource = false) :
    b.putCopies e.resource (if e.resource.shared then e.copies else 1) =
      ⟨b.entries ++ [e].filter (·.copies ≠ 0)⟩ := by
  have hcopies : (if e.resource.shared then e.copies else 1) = e.copies := by
    cases hshared : e.resource.shared with
    | false => simp [he.copies_eq_one hshared]
    | true => simp
  rw [hcopies]
  by_cases hzero : e.copies = 0
  · rw [putCopies_of_nothing b (.inl hzero)]
    simp [hzero]
  · rw [putCopies_of_other hzero hcontent hother, he.single_eq]
    simp [hzero]

theorem Tidy.ofEntries_eq (h : b.Tidy)
    (hcontent : ∀ e ∈ b.entries, e.resource.shared = false → e.resource.isEmpty = false) :
    ofEntries b.entries = ⟨b.entries.filter (·.copies ≠ 0)⟩ := by
  have hfold (es acc : List (Entry α)) (hes : ∀ e ∈ es, e ∈ b.entries)
      (hdistinct : Distinct ⟨acc ++ es⟩) :
      es.foldl (fun acc e => acc.putCopies e.resource (if e.resource.shared then e.copies else 1))
        (⟨acc⟩ : Bundle α) = ⟨acc ++ es.filter (·.copies ≠ 0)⟩ := by
    induction es generalizing acc with
    | nil => simp
    | cons e es ih =>
      obtain ⟨he, hes⟩ := List.forall_mem_cons.mp hes
      have hother : ∀ d ∈ acc, d.resource.accepts e.resource = false := fun d hd =>
        (List.pairwise_append.mp hdistinct).2.2 d hd e List.mem_cons_self
      have hstored := putCopies_stored (b := ⟨acc⟩) (h.counted e he) (hcontent e he) hother
      have hnext : Distinct ⟨acc ++ [e].filter (·.copies ≠ 0) ++ es⟩ := by
        rw [Distinct, List.append_assoc]
        exact hdistinct.sublist ((List.Sublist.refl acc).append
          ((List.filter_sublist (l := [e])).append (List.Sublist.refl es)))
      rw [List.foldl_cons, hstored, ih _ hes hnext, List.append_assoc, ← List.filter_append]
      rfl
  exact hfold b.entries [] (fun _ he => he) h.distinct

/-- A bundle comes back from its entries just when copies are counted of each instance. -/
theorem Tidy.ofEntries_eq_iff (h : b.Tidy)
    (hcontent : ∀ e ∈ b.entries, e.resource.shared = false → e.resource.isEmpty = false) :
    ofEntries b.entries = b ↔ ∀ e ∈ b.entries, e.copies ≠ 0 := by
  rw [h.ofEntries_eq hcontent]
  refine ⟨fun hsame => ?_, fun hcopies => ?_⟩
  · have hentries : b.entries.filter (·.copies ≠ 0) = b.entries := congrArg entries hsame
    simpa using List.filter_eq_self.mp hentries
  · exact congrArg Bundle.mk (List.filter_eq_self.mpr (by simpa using hcopies))

end RoleLottery.Bundle
