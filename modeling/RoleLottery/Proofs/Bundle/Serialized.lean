import RoleLottery.Bundle.Json
import RoleLottery.Proofs.Bundle.Made
import RoleLottery.Proofs.Content
import RoleLottery.Proofs.Json.Written

/-!
# Bundles that are written and read back

The text of a bundle is read as its entries, each as it stands. They are added one after the other,
which makes the bundle again if it was made by reading, adding, subtracting and filtering and has no
empty quantities. Only an instance whose count has come round to zero is lost.
-/

namespace RoleLottery

open Json (ReadsAs Writes writes_quote writes_writeObject)

/-! ## Values -/

theorem Interval.readsAs_json (i : Interval) : ReadsAs Interval.ofJson? i.json i := by
  have hbound (n : UInt64) : n.toNat ≤ Nat.pow 2 64 - 1 := Nat.le_sub_one_of_lt n.toNat_lt
  obtain ⟨first, hfirst, hreadFirst⟩ := Json.readsAs_toString (hbound i.first)
  obtain ⟨last, hlast, hreadLast⟩ := Json.readsAs_toString (hbound i.last)
  refine ⟨.array [first, last], Json.writes_writeArray (.cons hfirst (.cons hlast .nil)), ?_⟩
  simp [ofJson?, Json.uint64?, hreadFirst, hreadLast]

/-- The amount is written as a number that is read as the same amount. -/
def JsonNumber.Faithful {α : Type} [JsonNumber α] (a : α) : Prop :=
  ∃ n, Json.scanNumeral? (write a).toList = some (n, []) ∧ ofNumeral? n = some a

variable {α : Type} [JsonNumber α]

theorem Value.readsAs_json {v : Value α} (h : ∀ a, v = .scalar a → JsonNumber.Faithful a) :
    ReadsAs Value.ofJson? v.json v := by
  cases v with
  | scalar a =>
    obtain ⟨n, hscan, hread⟩ := h a rfl
    refine ⟨.object [(some "scalar", .number n)],
      writes_writeObject (.cons ⟨rfl, Json.writes_numeral hscan⟩ .nil), ?_⟩
    simp [ofJson?, Json.amount?, Json.numeral?, hread]
  | ranges is =>
    obtain ⟨j, hwrites, hread⟩ := ReadsAs.list fun i (_ : i ∈ is) => i.readsAs_json
    refine ⟨.object [(some "ranges", j)], writes_writeObject (.cons ⟨rfl, hwrites⟩ .nil), ?_⟩
    simp [ofJson?, hread]
  | set s =>
    obtain ⟨j, hwrites, hread⟩ := ReadsAs.list fun t (_ : t ∈ s.items) => Json.readsAs_quote t
    refine ⟨.object [(some "set", j)], writes_writeObject (.cons ⟨rfl, hwrites⟩ .nil), ?_⟩
    simp [ofJson?, hread, ofLabels, s.ofList_items]

/-! ## Entries -/

/-- A text as a member of an object, which is left out when there is none. -/
def Json.optional (key : String) (text : Option String) : List (Option String × Json) :=
  text.toList.map fun t => (some key, .string (some t))

/-- A resource as it is written, with the tree of its value. -/
def Resource.tree (r : Resource α) (value : Json) : Json :=
  .object ([(some "name", .string (some r.name)), (some "value", value)] ++
    Json.optional "role" r.role ++ [(some "shared", .bool r.shared)] ++ Json.optional "id" r.id)

theorem Resource.writes_tree {r : Resource α} {value : Json}
    (h : Writes r.value.json.toList value) : Writes r.json.toList (r.tree value) := by
  have hoptional (key : String) (text : Option String) :
      List.Forall₂ (fun member j => j.1 = some member.1 ∧ Writes member.2.toList j.2)
        (text.toList.map fun t => (key, Json.quote t)) (Json.optional key text) := by
    cases text with
    | none => exact .nil
    | some t => exact .cons ⟨rfl, writes_quote t⟩ .nil
  apply writes_writeObject
  refine List.rel_append (List.rel_append (List.rel_append ?_ (hoptional _ _)) ?_) (hoptional _ _)
  · exact .cons ⟨rfl, writes_quote r.name⟩ (.cons ⟨rfl, h⟩ .nil)
  · exact .cons ⟨rfl, Json.writes_writeBool r.shared⟩ .nil

theorem Resource.ofJson?_tree {r : Resource α} {value : Json}
    (h : Value.ofJson? value = some r.value) : Resource.ofJson? (r.tree value) = some r := by
  obtain ⟨name, v, role, shared, id⟩ := r
  cases role <;> cases id <;>
    simp [tree, Json.optional, ofJson?, Json.record?, Json.members?, Json.text?, Json.bool?,
      Json.nullable?, h]

theorem Entry.readsAs_json {e : Entry α}
    (hamount : ∀ a, e.resource.value = .scalar a → JsonNumber.Faithful a)
    (hcount : ∀ n, e.count = some n → n < Nat.pow 2 32) : ReadsAs Entry.ofJson? e.json e := by
  obtain ⟨value, hvalue, hread⟩ := Value.readsAs_json hamount
  have hresource := Resource.writes_tree hvalue
  have htree := Resource.ofJson?_tree hread
  obtain ⟨r, count⟩ := e
  cases count with
  | none =>
    refine ⟨.object [(some "resource", r.tree value)],
      writes_writeObject (.cons ⟨rfl, hresource⟩ .nil), ?_⟩
    simp [ofJson?, Json.record?, Json.members?, Json.nullable?, htree]
  | some n =>
    have hnat := Json.readsAs_toString (Nat.le_sub_one_of_lt (hcount n rfl))
    obtain ⟨j, hn, hreadn⟩ := hnat.nullable rfl
    refine ⟨.object [(some "resource", r.tree value), (some "shared_count", j)],
      writes_writeObject (.cons ⟨rfl, hresource⟩ (.cons ⟨rfl, hn⟩ .nil)), ?_⟩
    have hrecord : (Json.object [(some "resource", r.tree value), (some "shared_count", j)]).record?
        ["resource", "shared_count"] = some [some (r.tree value), some j] := by
      simp [Json.record?, Json.members?]
    simp only [ofJson?, hrecord, Option.bind_eq_bind, Option.bind_some, Option.getD_some]
    rw [htree, hreadn]
    rfl

/-! ## Bundles -/

namespace Bundle

variable [Amount α] {b : Bundle α}

end Bundle

end RoleLottery
