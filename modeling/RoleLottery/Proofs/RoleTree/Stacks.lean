import Mathlib.Data.List.Flatten
import RoleLottery.Proofs.Loop
import RoleLottery.Proofs.RoleTree.Audited
import RoleLottery.Proofs.RoleTree.Outline

/-!
# Loops over a stack of nodes

The outline, the audit, the shares and the forgetting of weights as loops over work stacks. In a
linked tree they end, as a child is nearer to the bound on the depth than its parent, and they do
what the recursions down to that bound do.
-/

namespace RoleLottery.RoleTree

open Loop

variable {α ω : Type} {t u : RoleTree α ω} {x y p c : NodeId} {ids : List NodeId}

/-! ## Levels below a node -/

/-- The number of levels that can be below a node. -/
def levels (t : RoleTree α ω) (x : NodeId) : Nat :=
  t.slots.size - 1 - RolePath.depth (t.node x).path

theorem Linked.levels_lt_size (h : t.Linked []) (hx : t.Live x) : t.levels x < t.slots.size := by
  have hlt := h.depth_lt_size hx
  unfold levels
  omega

theorem Linked.down_levels (h : t.Linked []) (hc : c ∈ (t.node p).children) :
    t.Live c ∧ t.levels c < t.levels p := by
  have hlive := (h.down hc).1
  have hdepth := h.depth_child hc
  have hlt := h.depth_lt_size hlive
  unfold levels
  exact ⟨hlive, by omega⟩

theorem within_eq_preorder (t : RoleTree α ω) (depth : Nat) (x : NodeId) :
    t.within depth x = preorder (fun y => (t.node y).children) depth x := by
  induction depth generalizing x with
  | zero => rfl
  | succ depth ih =>
    rw [within, preorder, funext ih]

def withinBack (t : RoleTree α ω) : Nat → NodeId → List NodeId :=
  preorder fun y => (t.node y).children.reverse

theorem withinBack_perm (t : RoleTree α ω) (depth : Nat) (x : NodeId) :
    (t.withinBack depth x).Perm (t.within depth x) := by
  rw [within_eq_preorder]
  exact preorder_perm (fun y => List.reverse_perm _) depth x

/-! ## The outline -/

/-- A line is added to the text, and the first child is pushed last. -/
def outlineBody (t : RoleTree α ω) (text : String) :
    NodeId × Nat → String × List (NodeId × Nat)
  | (x, depth) => (text ++ (String.ofList (List.replicate (2 * depth) ' ') ++ t.line x),
      (t.node x).children.reverse.map (·, depth + 1))

theorem Linked.outline_working (h : t.Linked []) : Working (pop t.outlineBody) Prod.mk
    (fun text e => (t.outlineBody text e).1)
    (fun e => (t.node e.1).children.map (·, e.2 + 1))
    (fun _ => True) (fun e => t.Live e.1) (fun e => t.levels e.1) where
  turn_eq _ _ stack := by simp [pop, outlineBody]
  keeps _ _ := trivial
  down _ e he := by
    obtain ⟨c, hc, rfl⟩ := List.mem_map.mp he
    exact h.down_levels hc

theorem Linked.preorder_outline (h : t.Linked []) (depth : Nat) (x : NodeId) :
    preorder (fun e : NodeId × Nat => (t.node e.1).children.map (·, e.2 + 1)) depth
        (x, RolePath.depth (t.node x).path) =
      (t.within depth x).map fun y => (y, RolePath.depth (t.node y).path) := by
  induction depth generalizing x with
  | zero => rfl
  | succ depth ih =>
    rw [preorder, within, List.map_cons, List.map_flatMap, List.flatMap_map]
    congr 1
    apply List.flatMap_congr
    intro c hc
    rw [← ih, h.depth_child hc]

theorem Linked.outline_ends (h : t.Linked []) : Ends (pop t.outlineBody) ("", [(t.top, 0)])
    ((t.within t.slots.size t.top).map fun y => (y, RolePath.depth (t.node y).path))
    (t.outline, []) := by
  have hdepth : RolePath.depth (t.node t.top).path = 0 := by
    rw [h.root_path]
    rfl
  have hends := h.outline_working.ends (fun _ => rfl) (x := (t.top, 0)) h.root_live
    (h.levels_lt_size h.root_live) (s := "") trivial
  rw [← hdepth, h.preorder_outline, hdepth, List.foldl_map] at hends
  have htext : (t.within t.slots.size t.top).foldl (fun text y =>
      (t.outlineBody text (y, RolePath.depth (t.node y).path)).1) "" = t.outline := by
    rw [h.outline_eq]
    exact (foldl_append_eq_join t.indentedLine _ "").trans (String.empty_append ..)
  rwa [htext] at hends

/-! ## Forgetting weights -/

def forgetWeight (t : RoleTree α ω) (x : NodeId) : RoleTree α ω :=
  t.modify x fun n => { n with weight := none }

def forgetBody (u : RoleTree α ω) (x : NodeId) : RoleTree α ω × List NodeId :=
  (u.forgetWeight x, (u.node x).children)

theorem SameLinks.forgetWeight (s : SameLinks t u) (x : NodeId) : SameLinks t (u.forgetWeight x) :=
  s.trans (SameLinks.modify u x fun n => ⟨none, n.ledger, rfl⟩)

theorem Linked.forget_working (h : t.Linked []) : Working (pop forgetBody) Prod.mk forgetWeight
    (fun y => (t.node y).children.reverse) (SameLinks t) t.Live t.levels where
  turn_eq s _ stack := by rw [← s.children, pop, forgetBody]
  keeps s _ := s.forgetWeight _
  down _ _ hc := h.down_levels (List.mem_reverse.mp hc)

instance : RightCommutative (forgetWeight : RoleTree α ω → NodeId → RoleTree α ω) where
  right_comm t x y := by
    by_cases hxy : x = y
    · rw [hxy]
    · exact modify_comm t hxy _ _

theorem SameLinks.forgetWithin_eq (s : SameLinks t u) (depth : Nat) (x : NodeId) :
    (t.within depth x).foldl RoleTree.forgetWeight u = u.forgetWithin depth x := by
  induction depth generalizing u x with
  | zero => rfl
  | succ depth ih =>
    have hfold (ids : List NodeId) {v : RoleTree α ω} (hv : SameLinks t v) :
        (ids.flatMap (t.within depth)).foldl RoleTree.forgetWeight v =
          ids.foldl (fun v c => v.forgetWithin depth c) v := by
      induction ids generalizing v with
      | nil => rfl
      | cons c ids ihids =>
        have hnext : SameLinks t (v.forgetWithin depth c) :=
          forgetWithin_induction (fun w y hw => hw.forgetWeight y) depth c hv
        rw [List.flatMap_cons, List.foldl_append, ih hv, ihids hnext, List.foldl_cons]
    rw [within, List.foldl_cons, hfold _ (s.forgetWeight x), forgetWithin, s.children]
    rfl

theorem Linked.forget_ends (h : t.Linked []) (hx : t.Live x) : Ends (pop forgetBody) (t, [x])
    (t.withinBack t.slots.size x) (t.forgetWeights x, []) := by
  have hends := h.forget_working.ends (fun _ => rfl) hx (h.levels_lt_size hx) (.refl t)
  have hforget : (t.withinBack t.slots.size x).foldl forgetWeight t = t.forgetWeights x := by
    rw [(t.withinBack_perm _ x).foldl_eq, (SameLinks.refl t).forgetWithin_eq, forgetWeights]
  exact hforget ▸ hends

/-! ## The audit -/

/-- The audit of one node, which ends the loop on the first breach. -/
def auditTurn (t : RoleTree α ω) : Except (TreeBreach ω) (Nat × List NodeId) →
    Option (NodeId × Except (TreeBreach ω) (Nat × List NodeId))
  | .error _ => none
  | .ok (_, []) => none
  | .ok (leaves, x :: stack) => some (x, do
    t.auditNode x
    t.auditLinks x false (t.node x).children
    return (leaves + (if (t.node x).kind.isLeaf then 1 else 0),
      (t.node x).children.reverse ++ stack))

theorem Sound.audit_working (h : t.Sound) : Working t.auditTurn
    (fun leaves stack => .ok (leaves, stack))
    (fun leaves y => leaves + if (t.node y).kind.isLeaf then 1 else 0)
    (fun y => (t.node y).children.reverse) (fun _ => True) t.Live t.levels where
  turn_eq _ hx stack := by
    obtain ⟨hnode, hlinks⟩ := admitted_iff.mpr (h.admitted hx)
    rw [auditTurn, hnode, hlinks]
    rfl
  keeps _ _ := trivial
  down _ _ hc := h.linked.down_levels (List.mem_reverse.mp hc)

theorem foldl_count (leaf : NodeId → Bool) (ids : List NodeId) (n : Nat) :
    ids.foldl (fun n y => n + if leaf y then 1 else 0) n = n + ids.countP leaf := by
  induction ids generalizing n with
  | nil => rfl
  | cons y ids ih =>
    rw [List.foldl_cons, ih, List.countP_cons, Nat.add_assoc, Nat.add_comm (ids.countP leaf)]

theorem Sound.audit_ends (h : t.Sound) : Ends t.auditTurn (.ok (0, [t.top]))
    (t.withinBack t.slots.size t.top) (.ok (t.clients.size, [])) := by
  have hroot := h.linked.root_live
  have hends := h.audit_working.ends (fun _ => rfl) hroot (h.linked.levels_lt_size hroot) (s := 0)
    trivial
  rw [foldl_count, Nat.zero_add] at hends
  rwa [← h.countP_leaves, ← (t.withinBack_perm _ t.top).countP_eq]

theorem audit_steps_append {depth : Nat} {cs : List NodeId}
    (hone : ∀ c ∈ cs, ∀ leaves stack, ∃ visited, Steps t.auditTurn (.ok (leaves, c :: stack))
      visited ((t.auditWithin depth c).map fun n => (leaves + n, stack)))
    (leaves m : Nat) (stack : List NodeId) :
    ∃ visited, Steps t.auditTurn (.ok (leaves + m, cs ++ stack)) visited
      ((cs.foldlM (fun m c => do return m + (← t.auditWithin depth c)) m).map
        fun n => (leaves + n, stack)) := by
  induction cs generalizing m with
  | nil => exact ⟨[], .refl _⟩
  | cons c cs ih =>
    obtain ⟨hc, hcs⟩ := List.forall_mem_cons.mp hone
    obtain ⟨visited, hfirst⟩ := hc (leaves + m) (cs ++ stack)
    rw [List.foldlM_cons]
    cases hn : t.auditWithin depth c with
    | error e =>
      rw [hn] at hfirst
      exact ⟨visited, hfirst⟩
    | ok n =>
      rw [hn] at hfirst
      obtain ⟨visited', hlast⟩ := ih hcs (m + n)
      rw [← Nat.add_assoc] at hlast
      exact ⟨visited ++ visited', hfirst.trans hlast⟩

/-- Below a node that the audit comes down to, sound or not, the loop finds what the recursion
finds. -/
theorem Traced.audit_steps (h : t.Plausible) (tr : t.Traced x ids) {depth : Nat}
    (hdepth : t.slots.size < depth + ids.length) (leaves : Nat) (stack : List NodeId) :
    ∃ visited, Steps t.auditTurn (.ok (leaves, x :: stack)) visited
      ((t.auditWithin depth x).map fun n => (leaves + n, stack)) := by
  induction depth generalizing x ids leaves stack with
  | zero =>
    have hle := length_le_size tr.nodup tr.live
    omega
  | succ depth ih =>
    rw [auditWithin]
    cases hnode : t.auditNode x with
    | error e =>
      have hturn : t.auditTurn (.ok (leaves, x :: stack)) = some (x, .error e) := by
        rw [auditTurn, hnode]
        rfl
      exact ⟨[x], .head hturn (.refl _)⟩
    | ok =>
      cases hlinks : t.auditLinks x false (t.node x).children with
      | error e =>
        have hturn : t.auditTurn (.ok (leaves, x :: stack)) = some (x, .error e) := by
          rw [auditTurn, hnode, hlinks]
          rfl
        exact ⟨[x], .head hturn (.refl _)⟩
      | ok =>
        have hturn : t.auditTurn (.ok (leaves, x :: stack)) =
            some (x, .ok (leaves + (if (t.node x).kind.isLeaf then 1 else 0),
              (t.node x).children.reverse ++ stack)) := by
          rw [auditTurn, hnode, hlinks]
          rfl
        have hx := admitted_iff.mp ⟨hnode, hlinks⟩
        obtain ⟨visited, hsteps⟩ := audit_steps_append (fun c hc =>
          ih (tr.child h hx (List.mem_reverse.mp hc)) (by rw [List.length_cons]; omega)) leaves
          (if (t.node x).kind.isLeaf then 1 else 0) stack
        exact ⟨x :: visited, .head hturn hsteps⟩

/-- The loop ends, with the number of leaves or the breach that the recursion finds. -/
theorem Plausible.audit_ends (h : t.Plausible) : ∃ visited, Ends t.auditTurn (.ok (0, [t.top]))
    visited ((t.auditWithin t.slots.size t.top).map fun leaves => (leaves, [])) := by
  have hdepth : t.slots.size < t.slots.size + [t.top].length := by simp
  obtain ⟨visited, hsteps⟩ := (Traced.root h).audit_steps h hdepth 0 []
  simp only [Nat.zero_add] at hsteps
  refine ⟨visited, hsteps, ?_⟩
  cases t.auditWithin t.slots.size t.top with
  | error e => rfl
  | ok leaves => rfl

/-! ## Shares -/

theorem SameLinks.liveChildren (s : SameLinks t u) (live : List NodeId) (x : NodeId) :
    u.liveChildren live x = t.liveChildren live x := by
  rw [RoleTree.liveChildren, s.children, RoleTree.liveChildren]

section

variable [Weight ω] {weights : Table ω} {live : List NodeId}

def weighAll (weights : Table ω) : RoleTree α ω → List NodeId → RoleTree α ω × List ω
  | u, [] => (u, [])
  | u, c :: ids =>
    let (u', read) := weighAll weights (u.keepWeight weights c) ids
    (u', u.weight weights c :: read)

/-- The shares so far and the tree whose weights are kept on the way. The children that lead to
active leaves are weighed in their order, and the first of them is pushed last. -/
def sharesBody (weights : Table ω) (live : List NodeId) :
    RoleTree α ω × List (String × ω) → NodeId × ω →
      (RoleTree α ω × List (String × ω)) × List (NodeId × ω)
  | (u, shares), (x, share) => match (u.node x).kind with
    | .inactive => ((u, shares), [])
    | .active => ((u, shares ++ [(u.clientOf x, share)]), [])
    | .internal =>
      let children := u.liveChildren live x
      let (u', read) := weighAll weights u children
      ((u', shares), (children.zip (divide share read)).reverse)

/-- The trees differ in kept weights only, and not in what the weights are. -/
structure SameWeights (weights : Table ω) (t u : RoleTree α ω) : Prop extends SameLinks t u where
  weight : u.weight weights = t.weight weights

theorem SameWeights.keepWeight (s : SameWeights weights t u) (x : NodeId) :
    SameWeights weights t (u.keepWeight weights x) := by
  refine ⟨s.trans (SameLinks.modify u x fun n => ⟨_, n.ledger, rfl⟩), ?_⟩
  rw [← s.weight]
  funext y
  exact apply_node_modify u x
    (fun n => { n with weight := some (n.weight.getD (configured weights n.path)) })
    (fun n => n.weight.getD (configured weights n.path)) (fun _ => rfl) y

theorem SameWeights.keepAll (s : SameWeights weights t u) (ids : List NodeId) :
    SameWeights weights t (ids.foldl (fun u c => u.keepWeight weights c) u) :=
  List.foldlRecOn ids _ s fun _ hu c _ => hu.keepWeight c

theorem SameWeights.weighAll_eq (s : SameWeights weights t u) (ids : List NodeId) :
    weighAll weights u ids =
      (ids.foldl (fun u c => u.keepWeight weights c) u, ids.map (t.weight weights)) := by
  induction ids generalizing u with
  | nil => rfl
  | cons c ids ih =>
    rw [weighAll, ih (s.keepWeight c), s.weight]
    rfl

def sharesNext (t : RoleTree α ω) (weights : Table ω) (live : List NodeId) (e : NodeId × ω) :
    List (NodeId × ω) :=
  match (t.node e.1).kind with
  | .internal =>
    let children := t.liveChildren live e.1
    children.zip (divide e.2 (children.map (t.weight weights)))
  | _ => []

theorem map_fst_sharesNext_sublist (t : RoleTree α ω) (weights : Table ω) (live : List NodeId)
    (e : NodeId × ω) :
    ((t.sharesNext weights live e).map (·.1)).Sublist (t.node e.1).children := by
  unfold sharesNext
  split
  · dsimp only
    rw [List.map_fst_zip (by simp [divide])]
    exact List.filter_sublist
  · exact List.nil_sublist _

theorem Linked.shares_working (h : t.Linked []) (weights : Table ω) (live : List NodeId) :
    Working (pop (sharesBody weights live)) Prod.mk
    (fun s e => (sharesBody weights live s e).1) (t.sharesNext weights live)
    (fun s => SameWeights weights t s.1) (fun e => t.Live e.1) (fun e => t.levels e.1) where
  turn_eq := by
    rintro ⟨u, shares⟩ ⟨x, share⟩ s - stack
    have hpushed : (sharesBody weights live (u, shares) (x, share)).2.reverse =
        t.sharesNext weights live (x, share) := by
      rw [sharesBody, sharesNext, s.kind]
      cases (t.node x).kind with
      | inactive => rfl
      | active => rfl
      | internal =>
        dsimp only
        rw [s.weighAll_eq, List.reverse_reverse, s.liveChildren]
    rw [pop, hpushed]
  keeps := by
    rintro ⟨u, shares⟩ ⟨x, share⟩ s -
    rw [sharesBody]
    cases (u.node x).kind with
    | inactive => exact s
    | active => exact s
    | internal =>
      dsimp only
      rw [s.weighAll_eq]
      exact s.keepAll _
  down _ e he :=
    h.down_levels ((t.map_fst_sharesNext_sublist weights live _).subset (List.mem_map_of_mem he))

/-- All entries that come of one do to the tree and to the shares what the recursions do. -/
theorem SameWeights.sharesWithin_eq (s : SameWeights weights t u) (depth : Nat) (e : NodeId × ω)
    (shares : List (String × ω)) :
    (preorder (t.sharesNext weights live) depth e).foldl
        (fun s e => (sharesBody weights live s e).1) (u, shares) =
      (keepWithin weights live depth u e.1,
        shares ++ t.sharesWithin (t.weight weights) live depth e.1 e.2) := by
  induction depth generalizing u e shares with
  | zero => simp [preorder, keepWithin, sharesWithin]
  | succ depth ih =>
    have hfold (es : List (NodeId × ω)) {v : RoleTree α ω} (hv : SameWeights weights t v)
        (shares : List (String × ω)) :
        (es.flatMap (preorder (t.sharesNext weights live) depth)).foldl
            (fun s e => (sharesBody weights live s e).1) (v, shares) =
          ((es.map (·.1)).foldl (keepWithin weights live depth) v, shares ++
            es.flatMap fun e => t.sharesWithin (t.weight weights) live depth e.1 e.2) := by
      induction es generalizing v shares with
      | nil => simp
      | cons e es ihes =>
        have hnext : SameWeights weights t (keepWithin weights live depth v e.1) :=
          keepWithin_induction (fun w y hw => hw.keepWeight y) live depth e.1 hv
        rw [List.flatMap_cons, List.foldl_append, ih hv, ihes hnext, List.append_assoc]
        rfl
    obtain ⟨x, share⟩ := e
    rw [preorder, List.foldl_cons, sharesBody, keepWithin, sharesWithin, sharesNext, s.kind]
    cases (t.node x).kind with
    | inactive => simp
    | active => simp [s.clientOf]
    | internal =>
      dsimp only
      rw [s.weighAll_eq, hfold _ (s.keepAll _), s.liveChildren, List.map_fst_zip (by simp [divide])]
      rfl

theorem map_fst_preorder_shares_sublist (t : RoleTree α ω) (weights : Table ω) (live : List NodeId)
    (depth : Nat) (e : NodeId × ω) :
    ((preorder (t.sharesNext weights live) depth e).map (·.1)).Sublist (t.within depth e.1) := by
  induction depth generalizing e with
  | zero => exact List.nil_sublist _
  | succ depth ih =>
    rw [preorder, within, List.map_cons, List.map_flatMap]
    have hbelow : ((t.sharesNext weights live e).flatMap fun e =>
        (preorder (t.sharesNext weights live) depth e).map (·.1)).Sublist
        ((t.sharesNext weights live e).flatMap fun e => t.within depth e.1) :=
      List.Sublist.flatMap_right _ fun e _ => ih e
    have hchildren := (t.map_fst_sharesNext_sublist weights live e).flatMap (t.within depth)
    rw [List.flatMap_map] at hchildren
    exact (hbelow.trans hchildren).cons_cons e.1

theorem Linked.shares_ends (h : t.Linked []) (weights : Table ω) :
    Ends (pop (sharesBody weights t.live)) ((t, []), [(t.top, Weight.one)])
      (preorder (t.sharesNext weights t.live) t.slots.size (t.top, Weight.one))
      ((t.keepWeights weights, t.shares weights), []) := by
  have hsame : SameWeights weights t t := ⟨.refl t, rfl⟩
  have hends := (h.shares_working weights t.live).ends (fun _ => rfl) (x := (t.top, Weight.one))
    h.root_live (h.levels_lt_size h.root_live) (s := (t, [])) hsame
  rwa [hsame.sharesWithin_eq] at hends

end

end RoleLottery.RoleTree
