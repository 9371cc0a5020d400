/-!
# Label sets

Finite sets of text, kept sorted, so that equal sets are equal values.
-/

namespace RoleLottery

/-- A finite set of texts in their order. -/
structure Labels where
  items : List String
  sorted : items.Pairwise (· < ·)

namespace Labels

instance : DecidableEq Labels := fun s t =>
  if h : s.items = t.items then
    isTrue (by cases s; cases t; simp_all)
  else isFalse fun e => h (e ▸ rfl)

def empty : Labels := ⟨[], .nil⟩

def place (label : String) : List String → List String
  | [] => [label]
  | s :: rest =>
    if label < s then label :: s :: rest
    else if s = label then s :: rest
    else s :: place label rest

theorem mem_place {label other : String} {items : List String} :
    other ∈ place label items ↔ other = label ∨ other ∈ items := by
  induction items with
  | nil => simp [place]
  | cons s rest ih =>
    simp only [place]
    split
    · simp
    · split
      · rename_i h
        subst h
        simp
      · simp only [List.mem_cons, ih]
        exact or_left_comm

theorem sorted_place {label : String} {items : List String} (h : items.Pairwise (· < ·)) :
    (place label items).Pairwise (· < ·) := by
  induction items with
  | nil => simp [place]
  | cons s rest ih =>
    obtain ⟨hs, hrest⟩ := List.pairwise_cons.mp h
    simp only [place]
    split
    · rename_i hlt
      refine List.pairwise_cons.mpr ⟨fun other ho => ?_, h⟩
      rcases List.mem_cons.mp ho with rfl | ho
      · exact hlt
      · exact String.lt_trans hlt (hs other ho)
    · rename_i hnlt
      split
      · exact h
      · rename_i hne
        refine List.pairwise_cons.mpr ⟨fun other ho => ?_, ih hrest⟩
        rcases mem_place.mp ho with rfl | ho
        · rcases Std.lt_trichotomy s other with hk | hk | hk
          · exact hk
          · exact absurd hk hne
          · exact absurd hk hnlt
        · exact hs other ho

def contains (s : Labels) (label : String) : Bool := s.items.contains label

def isEmpty (s : Labels) : Bool := s.items.isEmpty

def insert (s : Labels) (label : String) : Labels :=
  ⟨place label s.items, sorted_place s.sorted⟩

def ofList (labels : List String) : Labels := labels.foldl insert empty

def union (s t : Labels) : Labels := t.items.foldl insert s

def diff (s t : Labels) : Labels :=
  ⟨s.items.filter fun label => !t.contains label, s.sorted.sublist List.filter_sublist⟩

def isSubset (s t : Labels) : Bool := s.items.all t.contains

theorem mem_insert {s : Labels} {label other : String} :
    other ∈ (s.insert label).items ↔ other = label ∨ other ∈ s.items :=
  mem_place

end Labels

end RoleLottery
