import RoleLottery.Value

/-!
# Resources

A named value, perhaps reserved for a role. A shared resource is an instance that several holders
may have at once; a resource that is not shared is a quantity, which can be merged and split.
-/

namespace RoleLottery

structure Resource (α : Type) where
  name : String
  value : Value α
  role : Option String
  shared : Bool
  /-- Tells instances apart, such as volumes. -/
  id : Option String

namespace Resource

variable {α : Type} [Amount α]

def eq (r s : Resource α) : Bool :=
  r.name == s.name && r.value == s.value && r.role == s.role && r.shared == s.shared && r.id == s.id

instance : BEq (Resource α) := ⟨eq⟩

def isEmpty (r : Resource α) : Bool := r.value.isEmpty

/-- Two quantities that make up one entry of a bundle. -/
def isMergeable (r s : Resource α) : Bool :=
  !r.shared && !s.shared && r.name == s.name && r.role == s.role && r.id == s.id &&
    r.value.hasKindOf s.value

/-- `name(role)[id]:value (shared)`, without the parts that are missing. -/
def text [DecimalText α] (r : Resource α) : String :=
  r.name ++
    (match r.role with
      | some role => "(" ++ role ++ ")"
      | none => "") ++
    (match r.id with
      | some id => "[" ++ id ++ "]"
      | none => "") ++
    ":" ++ r.value.text ++ (if r.shared then " (shared)" else "")

end Resource

end RoleLottery
