import RoleLottery.Proofs.RoleTree.Stacks

/-!
# Loops end

All loops over the slots end on every tree that calls lead to. Those over work stacks meet no node
twice. Those that follow parents move up a chain of nodes that gets shorter with each turn, also
when the turn releases the node that it stands on or makes it a leaf.
-/

namespace RoleLottery.RoleTree

open Loop

variable {α ω : Type} {t t' : RoleTree α ω} {x y p q : NodeId} {ids above live : List NodeId}
  {client : String}

/-! ## Climbing -/

/-- A node that is there already ends the loop, and so does the root. -/
def climbTurn (t : RoleTree α ω) :
    List NodeId × Option NodeId → Option (NodeId × List NodeId × Option NodeId)
  | (_, none) => none
  | (live, some x) => if live.contains x then none else some (x, x :: live, (t.node x).parent)

theorem Lineage.drop (hids : t.Lineage x ids) {k : Nat} (hk : k < ids.length) :
    t.Lineage ids[k] (ids.drop k) := by
  induction hids generalizing k with
  | root =>
    obtain rfl : k = 0 := Nat.lt_one_iff.mp hk
    exact .root
  | child hp hmem ih =>
    cases k with
    | zero => exact .child hp hmem
    | succ k => exact ih (Nat.lt_of_succ_lt_succ hk)

theorem climb_ends_of_mem (t : RoleTree α ω) (hx : live.contains x) (steps : Nat) :
    Ends t.climbTurn (live, some x) [] (t.climb (steps + 1) live x, some x) := by
  rw [climb, if_pos hx]
  exact ⟨.refl _, if_pos hx⟩

theorem Linked.climb_ends (h : t.Linked []) (hids : t.Lineage x ids) (live : List NodeId)
    {steps : Nat} (hsteps : ids.length ≤ steps) : ∃ visited next,
      Ends t.climbTurn (live, some x) visited (t.climb steps live x, next) ∧ visited <+: ids := by
  induction hids generalizing live steps with
  | root =>
    cases steps with
    | zero => simp at hsteps
    | succ steps =>
      by_cases hx : live.contains t.top
      · exact ⟨[], some t.top, t.climb_ends_of_mem hx steps, List.nil_prefix⟩
      · have hturn : t.climbTurn (live, some t.top) = some (t.top, t.top :: live, none) := by
          rw [climbTurn, if_neg hx, h.root_parent]
        rw [climb, if_neg hx, h.root_parent]
        exact ⟨[t.top], none, .head hturn ⟨.refl _, rfl⟩, List.prefix_rfl⟩
  | @child p c ids hp hmem ih =>
    cases steps with
    | zero => simp at hsteps
    | succ steps =>
      by_cases hx : live.contains c
      · exact ⟨[], some c, t.climb_ends_of_mem hx steps, List.nil_prefix⟩
      · have hparent := (h.down hmem).2.2.1
        have hturn : t.climbTurn (live, some c) = some (c, c :: live, some p) := by
          rw [climbTurn, if_neg hx, hparent]
        obtain ⟨visited, next, hends, hfirst⟩ := ih (c :: live) (Nat.le_of_succ_le_succ hsteps)
        rw [climb, if_neg hx, hparent]
        exact ⟨c :: visited, next, .head hturn hends, (List.prefix_cons_inj c).mpr hfirst⟩

/-! ## Tidying up -/

/-- Tidies a node, which may release it or make it a leaf, and moves on to what was its parent. -/
def tidyTurn : RoleTree α ω × NodeId → Option ((RoleTree α ω × NodeId) × RoleTree α ω × NodeId)
  | (u, x) =>
    if x = u.top then none
    else match (u.node x).parent with
      | none => none
      | some p => some ((u, x), u.tidy x, p)

/-- The loop ends at the root. In the tree of each turn, what is left of the first lineage leads up
from the node of that turn. -/
structure Ascent (t : RoleTree α ω) (x : NodeId) (ids : List NodeId)
    (visited : List (RoleTree α ω × NodeId)) (final : RoleTree α ω) : Prop where
  ends : Ends tidyTurn (t, x) visited (final, final.top)
  nodes : visited.map (·.2) = ids.dropLast
  lineage : ∀ k (hk : k < visited.length), visited[k].1.Lineage visited[k].2 (ids.drop k)

theorem Ascent.root (t : RoleTree α ω) : Ascent t t.top [t.top] [] t where
  ends := ⟨.refl _, if_pos rfl⟩
  nodes := rfl
  lineage _ hk := absurd hk (Nat.not_lt_zero _)

theorem Tidies.lineage (s : Tidies t x p t') (hids : t.Lineage q ids) (hx : x ∉ ids) :
    t'.Lineage q ids :=
  hids.mono s.top fun _ hp _ hc =>
    s.kept (ne_of_mem_of_not_mem hp hx) (ne_of_mem_of_not_mem hc hx)

theorem Tidies.ascent (s : Tidies t x p (t.tidy x)) (h : t.Linked []) (hids : t.Lineage x ids)
    (hroot : x ≠ t.top) {final : RoleTree α ω}
    (hrest : ∀ {above}, (t.tidy x).Lineage p above →
      ∃ visited, Ascent (t.tidy x) p above visited final) :
    ∃ visited, Ascent t x ids visited final := by
  have hnodup := h.rooted.nodup_lineage hids
  cases hids with
  | root => exact absurd rfl hroot
  | @child q _ above hq hmem =>
    have hparent := s.parent
    rw [(h.down hmem).2.2.1] at hparent
    obtain rfl := Option.some.inj hparent
    obtain ⟨visited, a⟩ := hrest (s.lineage hq (List.nodup_cons.mp hnodup).1)
    have hturn : tidyTurn (t, x) = some ((t, x), t.tidy x, q) := by
      rw [tidyTurn, if_neg hroot, s.parent]
    refine ⟨(t, x) :: visited, .head hturn a.ends, ?_, ?_⟩
    · rw [List.map_cons, a.nodes, List.dropLast_cons_of_ne_nil (List.ne_nil_of_mem hq.mem_self)]
    · intro k hk
      cases k with
      | zero => exact .child hq hmem
      | succ k => exact a.lineage k (Nat.lt_of_succ_lt_succ hk)

theorem Linked.ascent (h : t.Linked []) (hb : t.Branching [x]) (hr : t.Registered [])
    (hx : t.Live x) (hkind : (t.node x).kind = .internal) (hids : t.Lineage x ids) (steps : Nat)
    (hsteps : RolePath.depth (t.node x).path ≤ steps) :
    ∃ visited, Ascent t x ids visited (t.tidyUp steps x) := by
  induction steps generalizing t x ids with
  | zero =>
    obtain rfl := h.eq_root_of_depth hx (Nat.le_zero.mp hsteps)
    obtain rfl := h.lineage_unique hids .root
    exact ⟨[], .root t⟩
  | succ steps ih =>
    by_cases hroot : x = t.top
    · subst hroot
      obtain rfl := h.lineage_unique hids .root
      rw [RoleTree.tidyUp, if_pos rfl]
      exact ⟨[], .root t⟩
    · obtain ⟨p, s⟩ := h.tidy_role hb hr hx hroot hkind
      rw [RoleTree.tidyUp, if_neg hroot, s.parent]
      exact s.ascent h hids hroot fun habove =>
        ih s.linked s.branching s.registered s.live s.internal habove (s.depth_le h hx hsteps)

theorem Loose.ascent (l : Loose t x) (hids : t.Lineage x ids) :
    ∃ visited, Ascent t x ids visited (t.tidyUp t.slots.size x) := by
  obtain ⟨p, steps, s, -, hfirst, hsteps⟩ := l.exists_step
  rw [hfirst]
  exact s.ascent l.linked hids l.ne_root fun habove =>
    s.linked.ascent s.branching s.registered s.live s.internal habove steps hsteps

theorem SameLinks.lineage (s : SameLinks t t') (hids : t.Lineage x ids) : t'.Lineage x ids :=
  hids.mono s.top fun p _ c _ hc => by rwa [s.children]

theorem Sound.remove_ends (h : t.Sound) (hclient : t.client? client = some x)
    (hids : t.Lineage x ids) : ∃ t' visited,
      t.remove client = .ok (t', (t.node x).ledger) ∧
        Ascent (t.strikeOut client x) x ids visited t' := by
  have s := SameLinks.strikeOut t client x
  obtain ⟨visited, a⟩ := (h.strikeOut hclient).ascent (s.lineage hids)
  refine ⟨_, visited, ?_, a⟩
  rw [remove, hclient]
  rfl

/-! ## All loops -/

/-- What the loops over the slots meet, and where they end. -/
structure LoopsEnd [Weight ω] (t : RoleTree α ω) : Prop where
  /-- The outline meets each node once, with its depth. -/
  outline : ∃ visited, Ends (pop t.outlineBody) ("", [(t.top, 0)]) visited (t.outline, []) ∧
    (visited.map (·.1)).Nodup ∧ (∀ x, x ∈ visited.map (·.1) ↔ t.Reached x) ∧
    ∀ e ∈ visited, e.2 = RolePath.depth (t.node e.1).path
  audit : ∃ visited, Ends t.auditTurn (.ok (0, [t.top])) visited (.ok (t.clients.size, [])) ∧
    t.audit = .ok () ∧ visited.Nodup ∧ ∀ x, x ∈ visited ↔ t.Reached x
  /-- The nodes at or below a node forget their weights, each once. -/
  forgetWeights : ∀ x, t.Reached x → ∃ visited,
    Ends (pop forgetBody) (t, [x]) visited (t.forgetWeights x, []) ∧
    visited.Nodup ∧ ∀ y, y ∈ visited ↔ ∃ ids, t.Lineage y ids ∧ x ∈ ids
  shares : ∀ weights, ∃ visited,
    Ends (pop (sharesBody weights t.live)) ((t, []), [(t.top, Weight.one)]) visited
      ((t.keepWeights weights, t.shares weights), []) ∧
    (visited.map (·.1)).Nodup ∧ ∀ e ∈ visited, t.Reached e.1
  /-- A climb meets the first nodes of a lineage, from each of which the rest leads up. -/
  climb : ∀ leaf ids, t.Lineage leaf ids → ∀ live, ∃ visited next,
    Ends t.climbTurn (live, some leaf) visited (t.climb t.slots.size live leaf, next) ∧
    visited <+: ids ∧ ∀ k (hk : k < visited.length), t.Lineage visited[k] (ids.drop k)
  /-- To remove a client meets the nodes of its lineage but the root. -/
  remove : ∀ client leaf ids, t.client? client = some leaf → t.Lineage leaf ids →
    ∃ t' visited, t.remove client = .ok (t', (t.node leaf).ledger) ∧
      Ascent (t.strikeOut client leaf) leaf ids visited t'

variable [Weight ω]

theorem Sound.loopsEnd (h : t.Sound) : LoopsEnd t := by
  have hrooted := h.linked.rooted
  have hback {x : NodeId} (hx : t.Reached x) : (t.withinBack t.slots.size x).Nodup :=
    (t.withinBack_perm _ x).nodup_iff.mpr (hrooted.nodup_within hx _)
  constructor
  case outline =>
    have hids : ((t.within t.slots.size t.top).map fun y =>
        (y, RolePath.depth (t.node y).path)).map (·.1) = t.within t.slots.size t.top := by
      rw [List.map_map]
      exact List.map_id _
    refine ⟨_, h.linked.outline_ends, ?_, fun x => ?_, ?_⟩
    · rw [hids]
      exact hrooted.nodup_within .root _
    · rw [hids]
      exact hrooted.mem_within_iff
    · intro e he
      obtain ⟨y, -, rfl⟩ := List.mem_map.mp he
      rfl
  case audit =>
    refine ⟨_, h.audit_ends, h.audit, hback .root, fun x => ?_⟩
    rw [(t.withinBack_perm _ t.top).mem_iff]
    exact hrooted.mem_within_iff
  case forgetWeights =>
    intro x hx
    refine ⟨_, h.linked.forget_ends (hrooted.live hx), hback hx, fun y => ?_⟩
    rw [(t.withinBack_perm _ x).mem_iff]
    exact h.linked.mem_within_size_iff hx
  case shares =>
    intro weights
    have hids := t.map_fst_preorder_shares_sublist weights t.live t.slots.size (t.top, Weight.one)
    refine ⟨_, h.linked.shares_ends weights, ?_, fun e he => ?_⟩
    · exact (hrooted.nodup_within .root _).sublist hids
    · exact hrooted.mem_within_iff.mp (hids.subset (List.mem_map_of_mem he))
  case climb =>
    intro leaf ids hids live
    obtain ⟨visited, next, hends, hfirst⟩ :=
      h.linked.climb_ends hids live (hrooted.length_lineage_le hids)
    refine ⟨visited, next, hends, hfirst, fun k hk => ?_⟩
    rw [hfirst.getElem hk]
    exact hids.drop _
  case remove => exact fun _ _ _ => h.remove_ends

/-- After any calls all loops over the slots end. -/
theorem loops_end_after (calls : List (TreeCall ω)) : LoopsEnd (after calls : RoleTree α ω) :=
  (sound_after calls).1.loopsEnd

/-- The leaf `a/b` is released, and then the role `a` is made a leaf. -/
theorem loops_end_after_fold :
    let t : RoleTree Int Rat := after [.add "a", .add "a/b"]
    t.client? "a/b" = some 3 ∧ t.Lineage 3 [3, 2, t.top] ∧ ∃ t' visited,
      t.remove "a/b" = .ok (t', (t.node 3).ledger) ∧
        Ascent (t.strikeOut "a/b" 3) 3 [3, 2, t.top] visited t' := by
  intro t
  have hclient : t.client? "a/b" = some 3 := by decide
  have hids : t.Lineage 3 [3, 2, t.top] := .child (.child .root (by decide)) (by decide)
  exact ⟨hclient, hids, (loops_end_after [.add "a", .add "a/b"]).remove "a/b" 3 _ hclient hids⟩

end RoleLottery.RoleTree
