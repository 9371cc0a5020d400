import RoleLottery.Proofs.RoleTree.Lineage

/-!
# Walks over a role tree

A walk over the nodes at or below a node meets each of them once, and one from the root meets all
that children lead to.
-/

namespace RoleLottery.RoleTree

variable {α ω : Type} {t : RoleTree α ω} {x y p c : NodeId} {ids : List NodeId}

theorem Linked.parent_mem_lineage (h : t.Linked []) (hids : t.Lineage x ids) (hc : c ∈ ids)
    (hmem : c ∈ (t.node p).children) : p ∈ ids := by
  obtain ⟨above, habove, hsuffix⟩ := hids.exists_suffix hc
  cases habove with
  | root => exact absurd rfl (h.child_ne_root hmem)
  | child hq hmem' =>
    obtain rfl := h.parent_eq hmem' hmem
    exact hsuffix.subset (List.mem_cons_of_mem c hq.mem_self)

/-! ## The nodes below a node -/

/-- The nodes at or below a node, down to a depth, each before its children. -/
def within (t : RoleTree α ω) : Nat → NodeId → List NodeId
  | 0, _ => []
  | depth + 1, id => id :: (t.node id).children.flatMap (t.within depth)

theorem mem_within_succ {depth : Nat} :
    y ∈ t.within (depth + 1) x ↔ y = x ∨ ∃ c ∈ (t.node x).children, y ∈ t.within depth c := by
  simp only [within, List.mem_cons, List.mem_flatMap]

theorem Lineage.exists_of_mem_within (hids : t.Lineage x ids) {depth : Nat}
    (hy : y ∈ t.within depth x) : ∃ line, t.Lineage y line ∧ ids <:+ line := by
  induction depth generalizing x ids with
  | zero => exact absurd hy List.not_mem_nil
  | succ depth ih =>
    rcases mem_within_succ.mp hy with hyx | ⟨c, hc, hy⟩
    · rw [hyx]
      exact ⟨ids, hids, List.suffix_rfl⟩
    · obtain ⟨line, hline, hsuffix⟩ := ih (hids.child hc) hy
      exact ⟨line, hline, (List.suffix_cons c ids).trans hsuffix⟩

theorem Linked.mem_lineage_of_mem_within (h : t.Linked []) {depth : Nat}
    (hy : y ∈ t.within depth x) (hids : t.Lineage y ids) : x ∈ ids := by
  induction depth generalizing x with
  | zero => exact absurd hy List.not_mem_nil
  | succ depth ih =>
    rcases mem_within_succ.mp hy with hyx | ⟨c, hc, hy⟩
    · rw [← hyx]
      exact hids.mem_self
    · exact h.parent_mem_lineage hids (ih hy) hc

theorem Rooted.nodup_within (h : t.Rooted) (hx : t.Reached x) (depth : Nat) :
    (t.within depth x).Nodup := by
  induction depth generalizing x with
  | zero => exact List.nodup_nil
  | succ depth ih =>
    obtain ⟨ids, hids⟩ := hx
    apply List.nodup_cons.mpr
    constructor
    · intro hmem
      obtain ⟨c, hc, hxc⟩ := List.mem_flatMap.mp hmem
      obtain ⟨line, hline, hsuffix⟩ := (hids.child hc).exists_of_mem_within hxc
      have hlength := hsuffix.length_le
      rw [h.lineage_unique hline hids, List.length_cons] at hlength
      omega
    · apply List.nodup_flatMap.mpr
      constructor
      · exact fun c hc => ih (.child ⟨ids, hids⟩ hc)
      · apply (h.nodup_children x).imp_of_mem
        intro c d hc hd hne y hyc hyd
        obtain ⟨line, hline, hsuffix⟩ := (hids.child hc).exists_of_mem_within hyc
        obtain ⟨line', hline', hsuffix'⟩ := (hids.child hd).exists_of_mem_within hyd
        rw [h.lineage_unique hline' hline] at hsuffix'
        have heq := (List.suffix_of_suffix_length_le hsuffix hsuffix' (by simp)).eq_of_length
          (by simp)
        exact hne (List.cons.inj heq).1

theorem mem_within_child {depth : Nat} (hp : p ∈ t.within depth x)
    (hc : c ∈ (t.node p).children) : c ∈ t.within (depth + 1) x := by
  induction depth generalizing x with
  | zero => exact absurd hp List.not_mem_nil
  | succ depth ih =>
    apply mem_within_succ.mpr
    rcases mem_within_succ.mp hp with hpx | ⟨d, hd, hp⟩
    · rw [← hpx]
      exact .inr ⟨c, hc, List.mem_cons_self⟩
    · exact .inr ⟨d, hd, ih hp⟩

theorem Lineage.mem_within (hids : t.Lineage x ids) {depth : Nat} (hdepth : ids.length ≤ depth) :
    x ∈ t.within depth t.top := by
  induction hids generalizing depth with
  | root =>
    cases depth with
    | zero => simp at hdepth
    | succ depth => exact List.mem_cons_self
  | child _ hmem ih =>
    cases depth with
    | zero => simp at hdepth
    | succ depth => exact mem_within_child (ih (Nat.le_of_succ_le_succ hdepth)) hmem

theorem Rooted.mem_within_iff (h : t.Rooted) : x ∈ t.within t.slots.size t.top ↔ t.Reached x := by
  constructor
  · intro hx
    obtain ⟨line, hline, -⟩ := Lineage.root.exists_of_mem_within hx
    exact ⟨line, hline⟩
  · rintro ⟨ids, hids⟩
    exact hids.mem_within (h.length_lineage_le hids)

theorem Linked.mem_within_iff (h : t.Linked []) : x ∈ t.within t.slots.size t.top ↔ t.Live x :=
  h.rooted.mem_within_iff.trans h.reached_iff

end RoleLottery.RoleTree
