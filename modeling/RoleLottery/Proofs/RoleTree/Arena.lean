import RoleLottery.Proofs.RoleTree.Audited
import RoleLottery.Proofs.RoleTree.Checked

/-!
# The arena of a role tree

What holds of the slots and of the links between them after any calls, so that no call looks into a
slot that is not in use.
-/

namespace RoleLottery.RoleTree

variable {α ω : Type} {t : RoleTree α ω}

structure Arena (t : RoleTree α ω) : Prop where
  /-- A slot is free, and listed as such once, or has one line of parents up to the root. -/
  slots : ∀ id < t.slots.size,
    ¬ t.Live id ∧ t.free.count id = 1 ∨ t.Live id ∧ id ∉ t.free ∧ ∃! ids, t.Lineage id ids
  free : ∀ id ∈ t.free, id < t.slots.size
  /-- The parent of a node, and no other node, lists it, and lists it once. -/
  parents : ∀ id, t.Live id → id ≠ t.top → ∃ p, (t.node id).parent = some p ∧
    (t.node p).children.count id = 1 ∧ ∀ q, id ∈ (t.node q).children → q = p
  names : ∀ p, ((t.node p).children.map fun c => (t.node c).name).Nodup
  live_clients : ∀ client id, t.client? client = some id → t.Live id
  live_children : ∀ p, ∀ c ∈ (t.node p).children, t.Live c
  live_parents : ∀ id p, t.Live id → (t.node id).parent = some p → t.Live p
  ordered : ∀ p, (t.node p).children.Pairwise fun c d =>
    (t.node c).kind = .inactive → (t.node d).kind = .inactive

theorem Sound.arena (h : t.Sound) : Arena t := by
  constructor
  case slots =>
    intro id hid
    by_cases hlive : t.Live id
    · have hfree : id ∉ t.free := fun hmem => ((h.linked.free.mem_iff id).mp hmem).2 hlive
      obtain ⟨ids, hids⟩ := h.linked.exists_lineage hlive
      exact .inr ⟨hlive, hfree, ids, hids, fun _ hids' => h.linked.lineage_unique hids' hids⟩
    · have hmem := (h.linked.free.mem_iff id).mpr ⟨hid, hlive⟩
      exact .inl ⟨hlive, List.count_eq_one_of_mem h.linked.free.nodup hmem⟩
  case free => exact fun id hid => ((h.linked.free.mem_iff id).mp hid).1
  case parents =>
    intro id hid hroot
    obtain ⟨p, hparent, hmem⟩ := h.linked.up hid hroot List.not_mem_nil
    exact ⟨p, hparent, List.count_eq_one_of_mem (h.linked.nodup_children p) hmem,
      fun q hq => h.linked.parent_eq hq hmem⟩
  case names => exact h.linked.apart
  case live_clients => exact fun client id hclient => ((h.registered client id).mp hclient).1
  case live_children => exact fun p c hc => (h.linked.down hc).1
  case live_parents => exact fun id p hid hparent => h.linked.parent_live hid hparent
  case ordered => exact h.linked.ordered

variable [Weight ω]

/-- Whatever is looked up or called next looks only into slots that are in use. -/
structure Guarded (t : RoleTree α ω) : Prop where
  live : Checked.live t = some t.live
  find? : ∀ path, Checked.find? t t.top (RolePath.segments path) = some (t.find? path)
  call : ∀ c : TreeCall ω, (∀ id ∈ c.slot?, t.Live id) → Checked.call t c = some (t.call c)

theorem Sound.guarded (h : t.Sound) : Guarded t where
  live := Checked.live_eq h
  find? _ := Checked.find?_eq h.linked h.linked.root_live
  call := Checked.call_eq h

/-- After any calls the audit finds no breach, the arena is sound, and no call looks into a slot
that is not in use. -/
theorem arena_after (calls : List (TreeCall ω)) :
    (after calls : RoleTree α ω).audit = .ok () ∧ Arena (after calls : RoleTree α ω) ∧
      Guarded (after calls : RoleTree α ω) := by
  obtain ⟨h, -⟩ := sound_after (α := α) calls
  exact ⟨h.audit, h.arena, h.guarded⟩

/-- The role `a` is folded back on the leaf of its own. -/
theorem arena_after_fold :
    Checked.call (after [.add "a", .add "a/b"] : RoleTree Int Rat) (.remove "a/b") =
        some ((after [.add "a", .add "a/b"]).call (.remove "a/b")) ∧
      Checked.call (after [.add "a", .add "a/b"] : RoleTree Int Rat) (.forgetWeights 2) =
        some ((after [.add "a", .add "a/b"]).call (.forgetWeights 2)) := by
  obtain ⟨-, -, hguarded⟩ :=
    arena_after (α := Int) ([.add "a", .add "a/b"] : List (TreeCall Rat))
  have hlive : (after [.add "a", .add "a/b"] : RoleTree Int Rat).Live 2 := by decide
  exact ⟨hguarded.call (.remove "a/b") (by simp [TreeCall.slot?]),
    hguarded.call (.forgetWeights 2) (by simpa [TreeCall.slot?] using hlive)⟩

end RoleLottery.RoleTree
