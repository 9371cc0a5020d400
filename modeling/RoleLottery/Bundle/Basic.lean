import RoleLottery.Resource

/-!
# Bundles of resources

A bundle has one entry for each quantity, with everything of one name, role, id and kind merged, and
one entry for each shared instance, with the number of its copies. Entries stand in the order in
which they came.
-/

namespace RoleLottery

/-- A resource of a bundle, with the number of copies when it is shared. -/
structure Entry (α : Type) where
  resource : Resource α
  count : Option Nat

def Entry.copies {α : Type} (e : Entry α) : Nat := e.count.getD 1

structure Bundle (α : Type) where
  entries : List (Entry α)

namespace Bundle

variable {α : Type} [Amount α]

def empty : Bundle α := ⟨[]⟩

instance : EmptyCollection (Bundle α) := ⟨empty⟩

instance : Inhabited (Bundle α) := ⟨empty⟩

def isEmpty (b : Bundle α) : Bool := b.entries.isEmpty

def size (b : Bundle α) : Nat := b.entries.length

def resources (b : Bundle α) : List (Resource α) := b.entries.map (·.resource)

/-- A non-empty quantity is inside an entry that it could be merged with. -/
def holdsQuantity (b : Bundle α) (r : Resource α) : Bool :=
  r.isEmpty || b.entries.any fun e => e.resource.isMergeable r && e.resource.value.contains r.value

def copiesOf (b : Bundle α) (r : Resource α) : Nat :=
  match b.entries.find? fun e => e.resource == r with
  | some e => e.copies
  | none => 0

/-- The bundle has that many copies of a shared instance, or all of a quantity. -/
def holds (b : Bundle α) (r : Resource α) (copies : Nat) : Bool :=
  if r.shared then copies ≤ b.copiesOf r else b.holdsQuantity r

def count (b : Bundle α) (r : Resource α) : Nat :=
  if r.shared then b.copiesOf r else if b.holds r 1 then 1 else 0

/-- Applies `f` to the first entry that satisfies `p`, which `f` may drop; `none` when there is no
such entry. -/
def alterFirst? (p : Entry α → Bool) (f : Entry α → Option (Entry α)) :
    List (Entry α) → Option (List (Entry α))
  | [] => none
  | e :: es =>
    if p e then some ((f e).toList ++ es) else (alterFirst? p f es).map (e :: ·)

/-- Adds copies of a shared instance, or the quantity once. Nothing is added for no copies, and an
empty quantity leaves no entry. -/
def putCopies (b : Bundle α) (r : Resource α) (copies : Nat) : Bundle α :=
  if copies = 0 then b
  else if r.shared then
    let more (e : Entry α) : Option (Entry α) :=
      some { e with count := some (Amount.tally α (e.copies + copies)) }
    ⟨(alterFirst? (fun e => e.resource == r) more b.entries).getD
      (b.entries ++ [⟨r, some (Amount.tally α copies)⟩])⟩
  else if r.isEmpty then b
  else
    let more (e : Entry α) : Option (Entry α) :=
      some { e with resource := { e.resource with value := e.resource.value.merge r.value } }
    ⟨(alterFirst? (fun e => e.resource.isMergeable r) more b.entries).getD
      (b.entries ++ [⟨r, none⟩])⟩

/-- Takes copies of a shared instance away, or the quantity. An entry with nothing left is dropped,
and what is not there is ignored. -/
def takeCopies (b : Bundle α) (r : Resource α) (copies : Nat) : Bundle α :=
  if r.shared then
    let less (e : Entry α) : Option (Entry α) :=
      if e.copies ≤ copies then none else some { e with count := some (e.copies - copies) }
    ⟨(alterFirst? (fun e => e.resource == r) less b.entries).getD b.entries⟩
  else
    let less (e : Entry α) : Option (Entry α) :=
      let left := { e.resource with value := e.resource.value.remove r.value }
      if left.isEmpty then none else some { e with resource := left }
    ⟨(alterFirst? (fun e => e.resource.isMergeable r) less b.entries).getD b.entries⟩

def insert (b : Bundle α) (r : Resource α) : Bundle α := b.putCopies r 1

def erase (b : Bundle α) (r : Resource α) : Bundle α := b.takeCopies r 1

def ofList (rs : List (Resource α)) : Bundle α := rs.foldl insert empty

def add (b c : Bundle α) : Bundle α :=
  c.entries.foldl (fun acc e => acc.putCopies e.resource e.copies) b

def sub (b c : Bundle α) : Bundle α :=
  c.entries.foldl (fun acc e => acc.takeCopies e.resource e.copies) b

instance : Add (Bundle α) := ⟨add⟩

instance : Sub (Bundle α) := ⟨sub⟩

/-- Each entry in turn is there and is taken away before the next one is looked for. -/
def containsAll (b : Bundle α) : List (Entry α) → Bool
  | [] => true
  | e :: es =>
    b.holds e.resource e.copies && (b.takeCopies e.resource e.copies).containsAll es

def contains (b c : Bundle α) : Bool := b.containsAll c.entries

/-- Bundles are the same when each contains the other, whatever the order of their entries. -/
def same (b c : Bundle α) : Bool := b.contains c && c.contains b

instance : BEq (Bundle α) := ⟨same⟩

def filter (b : Bundle α) (p : Resource α → Bool) : Bundle α :=
  ⟨b.entries.filter fun e => p e.resource⟩

def shared (b : Bundle α) : Bundle α := b.filter (·.shared)

def unshared (b : Bundle α) : Bundle α := b.filter (!·.shared)

def scalars (b : Bundle α) : Bundle α := b.filter (·.value.isScalar)

def amountsOf (b : Bundle α) (name : String) : List α :=
  (b.resources.filter (·.name == name)).filterMap (·.value.amount?)

/-- The sum of the scalar entries with one name, each entry once, rounded at the end. -/
def scalarTotal (b : Bundle α) (name : String) : α :=
  Amount.round ((b.amountsOf name).foldl Amount.add Amount.zero)

/-- The bundle that adding stored entries one after the other gives: what was stored twice is
merged, and what is empty is left out. -/
def ofEntries (es : List (Entry α)) : Bundle α :=
  es.foldl (fun acc e => acc.putCopies e.resource (if e.resource.shared then e.copies else 1)) empty

/-- The entries in braces; a shared instance with several copies names their number. -/
def text [DecimalText α] (b : Bundle α) : String :=
  let part (e : Entry α) : String :=
    match e.count with
    | some n => if 1 < n then e.resource.text ++ " x" ++ toString n else e.resource.text
    | none => e.resource.text
  "\x7b" ++ "; ".intercalate (b.entries.map part) ++ "\x7d"

end Bundle

end RoleLottery
