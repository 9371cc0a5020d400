/-!
# Tables

Finite maps from text, kept sorted by key. Two tables with the same look-ups are equal.
-/

namespace RoleLottery

/-- A finite map from text, in the order of its keys. -/
structure Table (β : Type) where
  entries : List (String × β)
  sorted : entries.Pairwise fun e f => e.1 < f.1

namespace Table

variable {β : Type}

instance [DecidableEq β] : DecidableEq (Table β) := fun s t =>
  if h : s.entries = t.entries then
    isTrue (by cases s; cases t; simp_all)
  else isFalse fun e => h (e ▸ rfl)

def empty : Table β := ⟨[], .nil⟩

instance : EmptyCollection (Table β) := ⟨empty⟩

instance : Inhabited (Table β) := ⟨empty⟩

def find? (key : String) : List (String × β) → Option β
  | [] => none
  | e :: es => if e.1 = key then some e.2 else find? key es

/-- Puts an entry into its place in a sorted list, in the place of an entry with the same key. -/
def place (key : String) (value : β) : List (String × β) → List (String × β)
  | [] => [(key, value)]
  | e :: es =>
    if key < e.1 then (key, value) :: e :: es
    else if e.1 = key then (key, value) :: es
    else e :: place key value es

def without (key : String) (es : List (String × β)) : List (String × β) :=
  es.filter fun e => e.1 ≠ key

theorem mem_place {key : String} {value : β} {es : List (String × β)} {e : String × β}
    (h : e ∈ place key value es) : e = (key, value) ∨ e ∈ es := by
  induction es with
  | nil => simpa [place] using h
  | cons f fs ih =>
    simp only [place] at h
    split at h
    · simpa using h
    · split at h
      · simp only [List.mem_cons] at h ⊢
        rcases h with h | h <;> simp [h]
      · simp only [List.mem_cons] at h ⊢
        rcases h with h | h
        · simp [h]
        · rcases ih h with h | h <;> simp [h]

theorem sorted_place {key : String} {value : β} {es : List (String × β)}
    (h : es.Pairwise fun e f => e.1 < f.1) :
    (place key value es).Pairwise fun e f => e.1 < f.1 := by
  induction es with
  | nil => simp [place]
  | cons f fs ih =>
    obtain ⟨hf, hfs⟩ := List.pairwise_cons.mp h
    simp only [place]
    split
    · rename_i hlt
      refine List.pairwise_cons.mpr ⟨fun e he => ?_, h⟩
      rcases List.mem_cons.mp he with rfl | he
      · exact hlt
      · exact String.lt_trans hlt (hf e he)
    · rename_i hnlt
      split
      · rename_i heq
        exact List.pairwise_cons.mpr ⟨fun e he => heq ▸ hf e he, hfs⟩
      · rename_i hne
        refine List.pairwise_cons.mpr ⟨fun e he => ?_, ih hfs⟩
        rcases mem_place he with rfl | he
        · rcases Std.lt_trichotomy f.1 key with hk | hk | hk
          · exact hk
          · exact absurd hk hne
          · exact absurd hk hnlt
        · exact hf e he

def get? (t : Table β) (key : String) : Option β := find? key t.entries

def contains (t : Table β) (key : String) : Bool := (t.get? key).isSome

def insert (t : Table β) (key : String) (value : β) : Table β :=
  ⟨place key value t.entries, sorted_place t.sorted⟩

def erase (t : Table β) (key : String) : Table β :=
  ⟨without key t.entries, t.sorted.sublist List.filter_sublist⟩

def size (t : Table β) : Nat := t.entries.length

def isEmpty (t : Table β) : Bool := t.entries.isEmpty

def values (t : Table β) : List β := t.entries.map (·.2)

/-- Of the entries with one key the last one counts. -/
def ofList (es : List (String × β)) : Table β :=
  es.foldl (fun t e => t.insert e.1 e.2) empty

theorem find?_place (key other : String) (value : β) (es : List (String × β)) :
    find? other (place key value es) = if key = other then some value else find? other es := by
  induction es with
  | nil => simp [place, find?]
  | cons f fs ih =>
    simp only [place]
    split
    · simp [find?]
    · split
      · rename_i heq
        simp only [find?, heq]
        split <;> simp_all
      · rename_i hne
        simp only [find?, ih]
        split <;> split <;> simp_all

theorem find?_without (key other : String) (es : List (String × β)) :
    find? other (without key es) = if key = other then none else find? other es := by
  induction es with
  | nil => simp [without, find?]
  | cons f fs ih =>
    simp only [without] at ih ⊢
    by_cases hf : f.1 = key <;> by_cases hk : key = other <;> simp_all [find?]

@[simp]
theorem get?_empty (key : String) : (empty : Table β).get? key = none := rfl

@[simp]
theorem get?_insert (t : Table β) (key other : String) (value : β) :
    (t.insert key value).get? other = if key = other then some value else t.get? other :=
  find?_place key other value t.entries

@[simp]
theorem get?_erase (t : Table β) (key other : String) :
    (t.erase key).get? other = if key = other then none else t.get? other :=
  find?_without key other t.entries

end Table

end RoleLottery
