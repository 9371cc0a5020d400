import RoleLottery.Proofs.Text
import RoleLottery.RolePath

/-!
# Names and paths

A path determines the names on it. Joining a name to a path can be undone, and the segments of the
joined path are those of the path followed by the name.
-/

namespace RoleLottery

namespace RolePath

/-- A text that can stand between two slashes. -/
def IsName (s : String) : Prop := s ≠ "" ∧ '/' ∉ s.toList

/-- The path `path` lies below `role`, with at least one more segment. -/
def Extends (path role : String) : Prop := ∃ rest, path = role ++ "/" ++ rest

def joinAll (role : String) (names : List String) : String := names.foldl join role

theorem isName_ownLeaf : IsName ownLeaf := by
  constructor <;> simp [ownLeaf]

theorem segments_injective {p q : String} (h : segments p = segments q) : p = q := by
  have hfields : Text.fields '/' p.toList = Text.fields '/' q.toList :=
    (List.map_inj_right fun _ _ he => String.ofList_injective he).mp h
  rw [← String.toList_inj, ← Text.intercalate_fields '/' p.toList, hfields,
    Text.intercalate_fields]

theorem segments_ne_nil (path : String) : segments path ≠ [] := by
  simpa [segments] using Text.fields_ne_nil '/' path.toList

theorem segments_of_isName {name : String} (h : IsName name) : segments name = [name] := by
  simp [segments, Text.fields_of_notMem h.2]

theorem segments_slash (p q : String) : segments (p ++ "/" ++ q) = segments p ++ segments q := by
  simp [segments, Text.fields_append_separator]

theorem segments_join (p : String) {name : String} (h : IsName name) :
    segments (join p name) = if p = "" then [name] else segments p ++ [name] := by
  unfold join
  split
  · exact segments_of_isName h
  · rw [segments_slash, segments_of_isName h]

theorem length_lt_join (p : String) {name : String} (h : IsName name) :
    p.length < (join p name).length := by
  have hname : name.length ≠ 0 := by simpa using h.1
  unfold join
  split
  · rename_i hp
    simp only [hp, String.length_empty]
    omega
  · simp only [String.length_append]
    omega

theorem join_ne_empty (p : String) {name : String} (h : IsName name) : join p name ≠ "" := by
  intro he
  have hlt := length_lt_join p h
  simp [he] at hlt

theorem join_injective {p q name other : String} (hn : IsName name) (ho : IsName other)
    (h : join p name = join q other) : p = q ∧ name = other := by
  have hseg := congrArg segments h
  rw [segments_join p hn, segments_join q ho] at hseg
  have hp := List.length_pos_iff.mpr (segments_ne_nil p)
  have hq := List.length_pos_iff.mpr (segments_ne_nil q)
  split at hseg <;> split at hseg <;> have hlen := congrArg List.length hseg <;>
    simp only [List.length_append, List.length_singleton] at hlen
  · simp_all
  · omega
  · omega
  · obtain ⟨hpq, hno⟩ := List.append_inj' hseg rfl
    exact ⟨segments_injective hpq, List.singleton_inj.mp hno⟩

theorem not_extends_empty (role : String) : ¬ Extends "" role := by
  rintro ⟨rest, h⟩
  rw [← String.toList_inj] at h
  simp at h

theorem not_extends_name {name : String} (h : IsName name) (role : String) :
    ¬ Extends name role := by
  rintro ⟨rest, rfl⟩
  exact h.2 (by simp)

theorem extends_join {p role name : String} (h : IsName name) :
    Extends (join p name) role ↔ p ≠ "" ∧ (p = role ∨ Extends p role) := by
  unfold join Extends
  split
  · rename_i hp
    simp only [hp, ne_eq, not_true_eq_false, false_and, iff_false, not_exists]
    rintro rest rfl
    exact h.2 (by simp)
  · rename_i hp
    simp only [hp, ne_eq, not_false_eq_true, true_and]
    constructor
    · rintro ⟨rest, he⟩
      -- The last slash of the joined path is the one before the name.
      rw [← String.toList_inj] at he
      simp only [String.toList_append, List.append_assoc] at he
      rcases List.append_eq_append_iff.mp he with ⟨cs, hrole, hname⟩ | ⟨cs, hp, hname⟩
      · cases cs with
        | nil => exact .inl (String.toList_inj.mp (by simpa using hrole.symm))
        | cons c cs =>
          have hmem : '/' ∈ name.toList := by simp_all
          exact absurd hmem h.2
      · cases cs with
        | nil => exact .inl (String.toList_inj.mp (by simpa using hp))
        | cons c cs =>
          refine .inr ⟨String.ofList cs, String.toList_inj.mp ?_⟩
          simp_all
    · rintro (rfl | ⟨rest, rfl⟩)
      · exact ⟨name, rfl⟩
      · exact ⟨rest ++ "/" ++ name, by simp [String.append_assoc]⟩

theorem segments_joinAll {p : String} {names : List String} (hp : p ≠ "")
    (h : ∀ name ∈ names, IsName name) : segments (joinAll p names) = segments p ++ names := by
  induction names generalizing p with
  | nil => simp [joinAll]
  | cons name names ih =>
    obtain ⟨hname, hnames⟩ := List.forall_mem_cons.mp h
    have hjoin := ih (join_ne_empty p hname) hnames
    rw [segments_join p hname, if_neg hp] at hjoin
    simpa [joinAll] using hjoin

theorem segments_joinAll_root {names : List String} (hne : names ≠ [])
    (h : ∀ name ∈ names, IsName name) : segments (joinAll "" names) = names := by
  cases names with
  | nil => exact absurd rfl hne
  | cons name names =>
    obtain ⟨hname, hnames⟩ := List.forall_mem_cons.mp h
    change segments (joinAll name names) = name :: names
    rw [segments_joinAll hname.1 hnames, segments_of_isName hname, List.singleton_append]

theorem joinAll_segments {path : String} (h : ∀ name ∈ segments path, IsName name) :
    joinAll "" (segments path) = path :=
  segments_injective (segments_joinAll_root (segments_ne_nil path) h)

theorem firstFault?_eq_none {names : List String} (h : firstFault? names = none) :
    ∀ name ∈ names, name ≠ "" ∧ name ≠ ownLeaf := by
  induction names with
  | nil => simp
  | cons name names ih =>
    simp only [firstFault?] at h
    split at h
    · simp at h
    · split at h
      · simp at h
      · rename_i hempty hown
        exact List.forall_mem_cons.mpr ⟨⟨hempty, hown⟩, ih h⟩

theorem of_split_eq_ok {path : String} {names : List String} (h : split path = .ok names) :
    path ≠ "" ∧ names = segments path ∧ (∀ name ∈ names, IsName name ∧ name ≠ ownLeaf) := by
  unfold split at h
  split at h
  · simp at h
  · rename_i hpath
    split at h
    · simp at h
    · rename_i hfault
      obtain rfl := Except.ok.inj h
      refine ⟨hpath, rfl, fun name hname => ?_⟩
      obtain ⟨hempty, hown⟩ := firstFault?_eq_none hfault name hname
      refine ⟨⟨hempty, ?_⟩, hown⟩
      obtain ⟨field, hfield, rfl⟩ := List.mem_map.mp hname
      simpa using Text.separator_notMem_of_mem_fields hfield

theorem ne_own_of_split_eq_ok {p name : String} {names : List String}
    (h : split (join p name) = .ok names) (hname : IsName name) : name ≠ ownLeaf := by
  obtain ⟨-, hsegments, hvalid⟩ := of_split_eq_ok h
  have hlast : name ∈ names := by
    rw [hsegments, segments_join p hname]
    split <;> simp
  exact (hvalid name hlast).2

theorem joinAll_of_split_eq_ok {path : String} {names : List String} (h : split path = .ok names) :
    joinAll "" names = path := by
  obtain ⟨-, rfl, hnames⟩ := of_split_eq_ok h
  exact joinAll_segments fun name hname => (hnames name hname).1

/-! ## Faults -/

/-- The text is no client path: it is empty, or the first of its segments that no path may have is
empty or reserved. -/
inductive Faulty : String → Fault → Prop
  | noSegments : Faulty "" .noSegments
  | emptySegment {path : String} {before after : List String} : path ≠ "" →
    segments path = before ++ "" :: after → (∀ s ∈ before, s ≠ "" ∧ s ≠ ownLeaf) →
    Faulty path .emptySegment
  | reservedSegment {path : String} {before after : List String} : path ≠ "" →
    segments path = before ++ ownLeaf :: after → (∀ s ∈ before, s ≠ "" ∧ s ≠ ownLeaf) →
    Faulty path .reservedSegment

theorem firstFault?_append {before : List String} (h : ∀ s ∈ before, s ≠ "" ∧ s ≠ ownLeaf)
    (rest : List String) : firstFault? (before ++ rest) = firstFault? rest := by
  induction before with
  | nil => rfl
  | cons s before ih =>
    obtain ⟨⟨hempty, hown⟩, hbefore⟩ := List.forall_mem_cons.mp h
    rw [List.cons_append, firstFault?, if_neg hempty, if_neg hown, ih hbefore]

theorem exists_of_firstFault?_eq_some {names : List String} {fault : Fault}
    (h : firstFault? names = some fault) :
    ∃ before s after, names = before ++ s :: after ∧ (∀ b ∈ before, b ≠ "" ∧ b ≠ ownLeaf) ∧
      (s = "" ∧ fault = .emptySegment ∨ s = ownLeaf ∧ fault = .reservedSegment) := by
  induction names with
  | nil => cases h
  | cons s rest ih =>
    simp only [firstFault?] at h
    split at h
    · rename_i hempty
      exact ⟨[], s, rest, rfl, by simp, .inl ⟨hempty, (Option.some.inj h).symm⟩⟩
    · rename_i hempty
      split at h
      · rename_i hown
        exact ⟨[], s, rest, rfl, by simp, .inr ⟨hown, (Option.some.inj h).symm⟩⟩
      · rename_i hown
        obtain ⟨before, t, after, hrest, hbefore, ht⟩ := ih h
        refine ⟨s :: before, t, after, by rw [hrest, List.cons_append], ?_, ht⟩
        exact List.forall_mem_cons.mpr ⟨⟨hempty, hown⟩, hbefore⟩

theorem split_eq_error_iff {path : String} {fault : Fault} :
    split path = .error fault ↔ Faulty path fault := by
  have hfirst (hpath : path ≠ "") :
      split path = .error fault ↔ firstFault? (segments path) = some fault := by
    rw [split, if_neg hpath]
    cases firstFault? (segments path) with
    | none => simp
    | some f => simp
  constructor
  · intro h
    by_cases hpath : path = ""
    · subst hpath
      obtain rfl : Fault.noSegments = fault := Except.error.inj h
      exact .noSegments
    · obtain ⟨before, s, after, hsegments, hbefore, hs⟩ :=
        exists_of_firstFault?_eq_some ((hfirst hpath).mp h)
      rcases hs with ⟨rfl, rfl⟩ | ⟨rfl, rfl⟩
      · exact .emptySegment hpath hsegments hbefore
      · exact .reservedSegment hpath hsegments hbefore
  · intro h
    cases h with
    | noSegments => rfl
    | emptySegment hpath hsegments hbefore =>
      refine (hfirst hpath).mpr ?_
      rw [hsegments, firstFault?_append hbefore]
      rfl
    | reservedSegment hpath hsegments hbefore =>
      refine (hfirst hpath).mpr ?_
      rw [hsegments, firstFault?_append hbefore]
      rfl

end RolePath

end RoleLottery
