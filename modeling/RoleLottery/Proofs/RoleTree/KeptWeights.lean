import RoleLottery.Proofs.RoleTree.Finding
import RoleLottery.Proofs.RoleTree.History
import RoleLottery.Proofs.RoleTree.Recast

/-!
# Kept weights

A node that keeps a weight keeps the one that is set for its path. No operation on the shape of the
tree breaks this: a node whose path changes forgets its weight, and a new one has none.
-/

namespace RoleLottery.RoleTree

variable {α ω : Type} [Weight ω]

/-- The weight that the node keeps, if any, is the one that is set for its path. -/
def Current (weights : Table ω) (n : Node α ω) : Prop :=
  ∀ kept, n.weight = some kept → kept = configured weights n.path

def Coherent (weights : Table ω) (t : RoleTree α ω) : Prop := ∀ id, Current weights (t.node id)

variable {t : RoleTree α ω} {weights : Table ω} {client : String}

theorem configured_insert (weights : Table ω) (path other : String) (weight : ω) :
    configured (weights.insert path weight) other =
      if path = other then weight else configured weights other := by
  unfold configured
  rw [Table.get?_insert]
  split <;> rfl

theorem Current.of_none {n : Node α ω} (h : n.weight = none) : Current weights n := by
  intro kept hkept
  rw [h] at hkept
  exact absurd hkept (by simp)

theorem Current.congr {n m : Node α ω} (h : Current weights n) (hweight : m.weight = n.weight)
    (hpath : m.path = n.path) : Current weights m := by
  intro kept hkept
  rw [hweight] at hkept
  rw [hpath]
  exact h kept hkept

namespace Coherent

theorem empty : (RoleTree.empty : RoleTree α ω).Coherent weights := by
  intro id
  apply Current.of_none
  cases id with
  | zero => rfl
  | succ id => rfl

theorem weight_eq (h : t.Coherent weights) (id : NodeId) :
    t.weight weights id = configured weights (t.node id).path := by
  unfold weight
  cases hkept : (t.node id).weight with
  | none => rfl
  | some kept => exact h id kept hkept

theorem shares_eq (h : t.Coherent weights) :
    t.shares weights = t.sharesBy fun id => configured weights (t.node id).path := by
  have hweight : t.weight weights = fun id => configured weights (t.node id).path := by
    funext id
    exact h.weight_eq id
  rw [shares, hweight]

/-! ## Slots and links -/

theorem modify (h : t.Coherent weights) (id : NodeId) {f : Node α ω → Node α ω}
    (hf : ∀ n, Current weights n → Current weights (f n)) : (t.modify id f).Coherent weights := by
  intro other
  by_cases hother : other = id
  · subst hother
    by_cases hlive : t.Live other
    · rw [node_modify_self _ _ _ hlive]
      exact hf _ (h other)
    · rw [node_of_not_live (by simpa using hlive)]
      exact Current.of_none rfl
  · rw [node_modify_ne _ _ _ hother]
    exact h other

theorem vacate (h : t.Coherent weights) (id : NodeId) : (t.vacate id).Coherent weights := by
  intro other
  by_cases hother : other = id
  · subst hother
    rw [node_of_not_live (by simp)]
    exact Current.of_none rfl
  · rw [node_vacate_ne _ hother]
    exact h other

theorem occupy (h : t.Coherent weights) {n : Node α ω} (hn : n.weight = none) :
    (t.occupy n).1.Coherent weights := by
  intro other
  have hcases : (t.occupy n).1.node other = n ∨ (t.occupy n).1.node other = t.node other := by
    unfold RoleTree.occupy
    split
    · rename_i id free hfree
      simp only [node, node?, Array.getElem?_setIfInBounds]
      split
      · split
        · exact .inl rfl
        · rename_i hid hsize
          subst hid
          rw [Array.getElem?_eq_none (Nat.le_of_not_lt hsize)]
          exact .inr rfl
      · exact .inr rfl
    · simp only [node, node?, Array.getElem?_push]
      split
      · exact .inl rfl
      · exact .inr rfl
  rcases hcases with hnew | hold
  · rw [hnew]
    exact Current.of_none hn
  · rw [hold]
    exact h other

theorem unlist (h : t.Coherent weights) (child : NodeId) : (t.unlist child).Coherent weights := by
  unfold RoleTree.unlist
  split
  · exact h.modify _ fun _ hn => hn.congr rfl rfl
  · exact h

theorem enlist (h : t.Coherent weights) (parent child : NodeId) :
    (t.enlist parent child).Coherent weights :=
  h.modify _ fun _ hn => hn.congr rfl rfl

theorem relist (h : t.Coherent weights) (id : NodeId) : (t.relist id).Coherent weights := by
  unfold RoleTree.relist
  split
  · exact (h.unlist id).enlist _ id
  · exact h

theorem sprout (h : t.Coherent weights) (name : String) (kind : NodeKind) (parent : NodeId) :
    (t.sprout name kind parent).1.Coherent weights :=
  (h.occupy rfl).enlist parent _

/-! ## Clients -/

theorem splitLeaf (h : t.Coherent weights) (leaf : NodeId) :
    (t.splitLeaf leaf).1.Coherent weights := by
  unfold RoleTree.splitLeaf
  dsimp only
  split
  · exact h
  · rename_i parent hparent
    apply enlist
    apply modify
    · exact (h.unlist leaf).sprout (t.node leaf).name .internal parent
    · exact fun _ _ => Current.of_none rfl

theorem grow (h : t.Coherent weights) (parent : NodeId) (names : List String) :
    (t.grow parent names).1.Coherent weights := by
  induction names generalizing t parent with
  | nil => exact h
  | cons name names ih => exact ih (h.sprout name .internal parent) _

theorem plant (h : t.Coherent weights) (names : List String) :
    (t.plant names).1.Coherent weights := by
  unfold RoleTree.plant
  split
  · exact h.sprout RolePath.ownLeaf .inactive _
  · rename_i last rest _ _
    have hsplit : (if (t.node last).kind.isLeaf then t.splitLeaf last else (t, last)).1.Coherent
        weights := by
      split
      · exact h.splitLeaf last
      · exact h
    apply relist
    apply modify
    · exact hsplit.grow _ rest
    · exact fun _ hn => hn.congr rfl rfl

theorem setClients (h : t.Coherent weights) (clients : Table NodeId) :
    { t with clients := clients }.Coherent weights := h

theorem add (h : t.Coherent weights) {t' : RoleTree α ω} (ht : t.add client = .ok t') :
    t'.Coherent weights := by
  unfold RoleTree.add at ht
  split at ht
  · exact absurd ht (by simp)
  · rename_i names _
    split at ht
    · exact absurd ht (by simp)
    · obtain rfl := Except.ok.inj ht
      exact (h.plant names).setClients _

theorem foldBack (h : t.Coherent weights) (internal own : NodeId) :
    (t.foldBack internal own).Coherent weights := by
  unfold RoleTree.foldBack
  apply setClients
  apply relist
  apply modify
  · exact (h.unlist own).vacate own
  · exact fun _ hn => hn.congr rfl rfl

theorem tidy (h : t.Coherent weights) (id : NodeId) : (t.tidy id).Coherent weights := by
  unfold RoleTree.tidy
  split
  · exact (h.unlist id).vacate id
  · split
    · exact h.foldBack id _
    · exact h
  · exact h

theorem tidyUp (h : t.Coherent weights) (steps : Nat) (id : NodeId) :
    (t.tidyUp steps id).Coherent weights := by
  induction steps generalizing t id with
  | zero => exact h
  | succ steps ih =>
    simp only [RoleTree.tidyUp]
    split
    · exact h
    · split
      · exact h
      · rename_i parent _
        exact ih (h.tidy id) parent

theorem remove (h : t.Coherent weights) {t' : RoleTree α ω} {ledger : Ledger α}
    (ht : t.remove client = .ok (t', ledger)) : t'.Coherent weights := by
  unfold RoleTree.remove at ht
  split at ht
  · exact absurd ht (by simp)
  · obtain ⟨rfl, -⟩ := Prod.mk.inj (Except.ok.inj ht)
    apply tidyUp
    apply modify
    · exact h.setClients _
    · exact fun _ hn => hn.congr rfl rfl

theorem setActivity (h : t.Coherent weights) {active changed : Bool} {t' : RoleTree α ω}
    (ht : t.setActivity client active = .ok (t', changed)) : t'.Coherent weights := by
  unfold RoleTree.setActivity at ht
  split at ht
  · exact absurd ht (by simp)
  · dsimp only at ht
    generalize (if active then NodeKind.active else .inactive) = kind at ht
    split at ht
    · obtain ⟨rfl, -⟩ := Prod.mk.inj (Except.ok.inj ht)
      exact h
    · obtain ⟨rfl, -⟩ := Prod.mk.inj (Except.ok.inj ht)
      apply relist
      apply h.modify
      exact fun _ hn => hn.congr rfl rfl

/-! ## Weights -/

theorem keepWeight (h : t.Coherent weights) (id : NodeId) :
    (t.keepWeight weights id).Coherent weights := by
  apply h.modify
  intro n hn kept hkept
  cases hweight : n.weight with
  | none => simpa [hweight] using hkept.symm
  | some before =>
    rw [← hn before hweight]
    simpa [hweight] using hkept.symm

theorem keepWeights (h : t.Coherent weights) : (t.keepWeights weights).Coherent weights :=
  keepWithin_induction (fun _ id hu => hu.keepWeight id) _ _ _ h

end Coherent

omit [Weight ω] in
theorem forgetWithin_node (t : RoleTree α ω) (depth : Nat) (id other : NodeId) :
    ((t.forgetWithin depth id).node other).path = (t.node other).path ∧
      (((t.forgetWithin depth id).node other).weight = none ∨
        ((t.forgetWithin depth id).node other).weight = (t.node other).weight) := by
  refine forgetWithin_induction (motive := fun u => (u.node other).path = (t.node other).path ∧
    ((u.node other).weight = none ∨ (u.node other).weight = (t.node other).weight))
    ?_ depth id ⟨rfl, .inr rfl⟩
  intro u x hu
  by_cases hother : other = x
  · subst hother
    by_cases hlive : u.Live other
    · rw [node_modify_self _ _ _ hlive]
      exact ⟨hu.1, .inl rfl⟩
    · rw [node_of_not_live hlive] at hu
      rw [node_of_not_live (by simpa using hlive)]
      exact hu
  · rw [node_modify_ne _ _ _ hother]
    exact hu

omit [Weight ω] in
theorem weight_forgetWeights {x : NodeId} (hx : t.Live x) :
    ((t.forgetWeights x).node x).weight = none := by
  obtain ⟨depth, hdepth⟩ := Nat.exists_eq_succ_of_ne_zero (Nat.ne_zero_of_lt hx.lt_size)
  rw [forgetWeights, hdepth]
  simp only [forgetWithin]
  -- The node itself comes first, and nothing gives it a weight again.
  apply List.foldlRecOn (motive := fun u => (RoleTree.node u x).weight = none)
  · rw [node_modify_self _ _ _ hx]
  · intro u hu child _
    rcases (u.forgetWithin_node depth child x).2 with hnone | hsame
    · exact hnone
    · exact hsame.trans hu

/-- When the weight of a path changes, the node with that path forgets its weight. -/
theorem Coherent.setWeight (h : t.Coherent weights) (hl : t.Linked []) {path : String}
    (hpath : path ≠ "") (weight : ω) :
    (match t.find? path with
      | some id => t.forgetWeights id
      | none => t).Coherent (weights.insert path weight) := by
  have hother {id : NodeId} (hid : t.find? path ≠ some id) {kept : ω}
      (hkept : (t.node id).weight = some kept) :
      kept = configured (weights.insert path weight) (t.node id).path := by
    have hne : (t.node id).path ≠ path := by
      intro he
      have hlive : t.Live id := by
        by_contra hdead
        rw [node_of_not_live hdead] at hkept
        exact absurd hkept (by simp [default, bareNode])
      have hroot : id ≠ t.top := by
        intro he
        subst he
        exact hpath (he.symm.trans hl.root_path)
      exact hid (he ▸ hl.find?_path hlive hroot)
    rw [h id kept hkept, configured_insert, if_neg (Ne.symm hne)]
  intro id kept hkept
  cases hfind : t.find? path with
  | none =>
    rw [hfind] at hkept
    exact hother (by simp [hfind]) hkept
  | some x =>
    rw [hfind] at hkept
    dsimp only at hkept ⊢
    obtain ⟨hlive, -, -⟩ := hl.find?_eq_some_iff.mp hfind
    by_cases hid : id = x
    · subst hid
      rw [weight_forgetWeights hlive] at hkept
      exact absurd hkept (by simp)
    · obtain ⟨hidpath, hnone | hsame⟩ := t.forgetWithin_node t.slots.size x id
      · exact absurd (hkept.symm.trans hnone) (by simp)
      · rw [forgetWeights, hidpath]
        exact hother (by simpa [hfind] using Ne.symm hid) (hsame.symm.trans hkept)

end RoleLottery.RoleTree
