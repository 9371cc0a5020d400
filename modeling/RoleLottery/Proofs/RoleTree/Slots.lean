import Mathlib.Tactic.ByContra
import RoleLottery.RoleTree.Basic

/-!
# Slots of a role tree

What the operations on slots and links do, seen through the set of live slots and the nodes in
them.
-/

namespace RoleLottery.RoleTree

variable {α ω : Type}

def Live (t : RoleTree α ω) (id : NodeId) : Prop := (t.node? id).isSome = true

instance (t : RoleTree α ω) (id : NodeId) : Decidable (t.Live id) :=
  inferInstanceAs (Decidable (_ = true))

theorem node?_eq_some_iff {t : RoleTree α ω} {id : NodeId} {n : Node α ω} :
    t.node? id = some n ↔ t.Live id ∧ t.node id = n := by
  unfold Live node
  cases t.node? id <;> simp

theorem node?_of_live {t : RoleTree α ω} {id : NodeId} (h : t.Live id) :
    t.node? id = some (t.node id) :=
  node?_eq_some_iff.mpr ⟨h, rfl⟩

theorem node_of_not_live {t : RoleTree α ω} {id : NodeId} (h : ¬ t.Live id) :
    t.node id = default := by
  unfold Live at h
  unfold node
  cases hn : t.node? id <;> simp_all

theorem live_of_mem_children {t : RoleTree α ω} {id child : NodeId}
    (h : child ∈ (t.node id).children) : t.Live id := by
  by_contra hid
  rw [node_of_not_live hid] at h
  exact absurd h List.not_mem_nil

theorem isLeaf_iff {kind : NodeKind} : kind.isLeaf ↔ kind ≠ .internal := by
  simp [NodeKind.isLeaf]

theorem ne_of_isLeaf {t : RoleTree α ω} {x p : NodeId} (hleaf : (t.node x).kind.isLeaf)
    (hkind : (t.node p).kind = .internal) : x ≠ p := by
  intro he
  rw [he] at hleaf
  exact isLeaf_iff.mp hleaf hkind

theorem ne_of_childless {t : RoleTree α ω} {x p c : NodeId} (hx : (t.node x).children = [])
    (hc : c ∈ (t.node p).children) : p ≠ x := by
  intro he
  rw [he, hx] at hc
  exact absurd hc List.not_mem_nil

theorem Live.lt_size {t : RoleTree α ω} {id : NodeId} (h : t.Live id) : id < t.slots.size := by
  by_contra hid
  have hnone : t.slots[id]? = none := Array.getElem?_eq_none (Nat.le_of_not_lt hid)
  simp [Live, node?, hnone] at h

theorem client?_congr {t t' : RoleTree α ω} (h : t'.clients = t.clients) (client : String) :
    t'.client? client = t.client? client := by
  rw [client?, h, client?]

/-! ## Changing a node -/

section Modify

variable (t : RoleTree α ω) (id : NodeId) (f : Node α ω → Node α ω)

@[simp]
theorem free_modify : (t.modify id f).free = t.free := rfl

@[simp]
theorem top_modify : (t.modify id f).top = t.top := rfl

@[simp]
theorem clients_modify : (t.modify id f).clients = t.clients := rfl

@[simp]
theorem size_slots_modify : (t.modify id f).slots.size = t.slots.size := by
  simp [modify]

theorem node?_modify (other : NodeId) :
    (t.modify id f).node? other = if id = other then (t.node? other).map f else t.node? other := by
  simp only [node?, modify, Array.getElem?_modify]
  split
  · cases t.slots[other]? <;> rfl
  · rfl

@[simp]
theorem live_modify (other : NodeId) : (t.modify id f).Live other ↔ t.Live other := by
  unfold Live
  rw [node?_modify]
  split
  · rw [Option.isSome_map]
  · rfl

theorem node_modify_ne {other : NodeId} (h : other ≠ id) :
    (t.modify id f).node other = t.node other := by
  simp [node, node?_modify, Ne.symm h]

theorem node_modify_self (h : t.Live id) : (t.modify id f).node id = f (t.node id) := by
  unfold node
  rw [node?_modify, if_pos rfl, node?_of_live h]
  rfl

/-- What `f` leaves as it is can be read off the tree before. -/
theorem apply_node_modify {β : Type} (field : Node α ω → β) (hf : ∀ n, field (f n) = field n)
    (other : NodeId) : field ((t.modify id f).node other) = field (t.node other) := by
  by_cases h : other = id
  · subst h
    by_cases hlive : t.Live other
    · rw [node_modify_self t other f hlive, hf]
    · rw [node_of_not_live hlive, node_of_not_live (by simpa using hlive)]
  · rw [node_modify_ne t id f h]

end Modify

theorem modify_comm (t : RoleTree α ω) {id other : NodeId} (h : id ≠ other)
    (f g : Node α ω → Node α ω) :
    (t.modify id f).modify other g = (t.modify other g).modify id f := by
  simp only [modify, mk.injEq, and_true]
  apply Array.ext_getElem?
  intro i
  simp only [Array.getElem?_modify]
  split <;> split <;> simp_all

theorem modify_modify (t : RoleTree α ω) (id : NodeId) (f g : Node α ω → Node α ω) :
    (t.modify id f).modify id g = t.modify id fun n => g (f n) := by
  simp only [modify, mk.injEq, and_true]
  apply Array.ext_getElem?
  intro i
  simp only [Array.getElem?_modify]
  split
  · rw [Option.map_map]
    congr 1
    funext slot
    cases slot <;> rfl
  · rfl

theorem modify_of_apply_eq {t : RoleTree α ω} {id : NodeId} {f : Node α ω → Node α ω}
    (h : f (t.node id) = t.node id) : t.modify id f = t := by
  have hslots : t.slots.modify id (·.map f) = t.slots := by
    apply Array.ext_getElem?
    intro i
    rw [Array.getElem?_modify]
    split
    · rename_i hi
      subst hi
      cases hslot : t.slots[id]? with
      | none => rfl
      | some slot =>
        cases slot with
        | none => rfl
        | some n =>
          have hn : t.node id = n := by simp [node, node?, hslot]
          rw [hn] at h
          simp [h]
    · rfl
  rw [modify, hslots]

/-! ## Taking and releasing slots -/

structure FreeListed (t : RoleTree α ω) : Prop where
  nodup : t.free.Nodup
  mem_iff : ∀ id, id ∈ t.free ↔ id < t.slots.size ∧ ¬ t.Live id

theorem FreeListed.congr {t t' : RoleTree α ω} (h : t.FreeListed) (hfree : t'.free = t.free)
    (hsize : t'.slots.size = t.slots.size) (hlive : ∀ id, t'.Live id ↔ t.Live id) :
    t'.FreeListed := by
  refine ⟨hfree ▸ h.nodup, fun id => ?_⟩
  rw [hfree, hsize, hlive, h.mem_iff]

@[simp]
theorem top_vacate (t : RoleTree α ω) (id : NodeId) : (t.vacate id).top = t.top := rfl

@[simp]
theorem clients_vacate (t : RoleTree α ω) (id : NodeId) : (t.vacate id).clients = t.clients := rfl

@[simp]
theorem size_slots_vacate (t : RoleTree α ω) (id : NodeId) :
    (t.vacate id).slots.size = t.slots.size := by
  simp [vacate]

theorem node?_vacate (t : RoleTree α ω) (id other : NodeId) :
    (t.vacate id).node? other = if other = id then none else t.node? other := by
  simp only [node?, vacate, Array.getElem?_setIfInBounds]
  grind

@[simp]
theorem live_vacate (t : RoleTree α ω) (id other : NodeId) :
    (t.vacate id).Live other ↔ other ≠ id ∧ t.Live other := by
  simp only [Live, node?_vacate]
  split <;> simp_all

theorem node_vacate_ne (t : RoleTree α ω) {id other : NodeId} (h : other ≠ id) :
    (t.vacate id).node other = t.node other := by
  simp [node, node?_vacate, h]

theorem FreeListed.vacate {t : RoleTree α ω} (h : t.FreeListed) {id : NodeId} (hid : t.Live id) :
    (t.vacate id).FreeListed := by
  constructor
  · exact List.nodup_cons.mpr ⟨fun hmem => ((h.mem_iff id).mp hmem).2 hid, h.nodup⟩
  · intro other
    have hlt := hid.lt_size
    rw [size_slots_vacate, live_vacate]
    simp only [RoleTree.vacate, List.mem_cons, h.mem_iff]
    grind

@[simp]
theorem top_occupy (t : RoleTree α ω) (n : Node α ω) : (t.occupy n).1.top = t.top := by
  unfold occupy
  split <;> rfl

@[simp]
theorem clients_occupy (t : RoleTree α ω) (n : Node α ω) : (t.occupy n).1.clients = t.clients := by
  unfold occupy
  split <;> rfl

theorem FreeListed.not_live_occupy {t : RoleTree α ω} (h : t.FreeListed) (n : Node α ω) :
    ¬ t.Live (t.occupy n).2 := by
  unfold occupy
  split
  · rename_i id free hfree
    exact ((h.mem_iff id).mp (by simp [hfree])).2
  · exact fun hlive => absurd hlive.lt_size (Nat.lt_irrefl _)

theorem FreeListed.node?_occupy {t : RoleTree α ω} (h : t.FreeListed) (n : Node α ω)
    (other : NodeId) :
    (t.occupy n).1.node? other = if other = (t.occupy n).2 then some n else t.node? other := by
  unfold occupy
  split
  · rename_i id free hfree
    have hlt := ((h.mem_iff id).mp (by simp [hfree])).1
    simp only [node?, Array.getElem?_setIfInBounds]
    grind
  · simp only [node?, Array.getElem?_push]
    split <;> rfl

theorem FreeListed.live_occupy {t : RoleTree α ω} (h : t.FreeListed) (n : Node α ω)
    (other : NodeId) : (t.occupy n).1.Live other ↔ other = (t.occupy n).2 ∨ t.Live other := by
  simp only [Live, h.node?_occupy]
  split <;> simp_all

theorem FreeListed.node_occupy_self {t : RoleTree α ω} (h : t.FreeListed) (n : Node α ω) :
    (t.occupy n).1.node (t.occupy n).2 = n := by
  simp [node, h.node?_occupy]

theorem FreeListed.node_occupy_ne {t : RoleTree α ω} (h : t.FreeListed) (n : Node α ω)
    {other : NodeId} (hne : other ≠ (t.occupy n).2) : (t.occupy n).1.node other = t.node other := by
  simp [node, h.node?_occupy, hne]

theorem FreeListed.occupy {t : RoleTree α ω} (h : t.FreeListed) (n : Node α ω) :
    (t.occupy n).1.FreeListed := by
  have hlive := h.live_occupy n
  constructor
  · unfold RoleTree.occupy
    split
    · rename_i id free hfree
      exact (List.nodup_cons.mp (hfree ▸ h.nodup)).2
    · rename_i hfree
      simp [hfree]
  · intro other
    rw [hlive]
    have hmem := h.mem_iff other
    have hnodup := h.nodup
    unfold RoleTree.occupy
    split
    · rename_i id free hfree
      rw [hfree] at hmem hnodup
      simp only [Array.size_setIfInBounds]
      grind
    · rename_i hfree
      simp only [Array.size_push]
      grind

theorem size_slots_le_occupy (t : RoleTree α ω) (n : Node α ω) :
    t.slots.size ≤ (t.occupy n).1.slots.size := by
  unfold occupy
  split <;> simp

end RoleLottery.RoleTree
