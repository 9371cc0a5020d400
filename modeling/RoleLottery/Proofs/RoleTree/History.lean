import RoleLottery.Proofs.RoleTree.Adding
import RoleLottery.Proofs.RoleTree.Removing
import RoleLottery.Shares

/-!
# Histories of a role tree

A history is a list of calls on the tree of the root alone. A call that fails leaves the tree as it
was. Every history leaves a sound tree, with the accounts that a flat table of clients would have.
-/

namespace RoleLottery.RoleTree

variable {α ω : Type} {t t' : RoleTree α ω} {client : String}

/-! ## Activity -/

theorem setActivity_eq_error (hclient : t.account? client = none) (active : Bool) :
    t.setActivity client active = .error (.unknown client) := by
  simp [setActivity, account?_eq_none_iff.mp hclient]

theorem Sound.setActivity_eq_ok (h : t.Sound) {a : Account α}
    (hclient : t.account? client = some a) (active : Bool) :
    ∃ t' changed, t.setActivity client active = .ok (t', changed) ∧ t'.Sound ∧
      (changed = false → t' = t) ∧ ∀ other, t'.account? other =
        if client = other then some ⟨active, a.ledger⟩ else t.account? other := by
  obtain ⟨x, hx, rfl⟩ := account?_eq_some_iff.mp hclient
  obtain ⟨hlive, -, hleaf, -⟩ := (h.registered client x).mp hx
  have hroot : x ≠ t.top := h.linked.ne_root_of_leaf hleaf
  let kind := if active then NodeKind.active else .inactive
  have hkindleaf : kind.isLeaf := by
    cases active <;> rfl
  have hkindactive : decide (kind = .active) = active := by
    cases active <;> rfl
  unfold setActivity
  rw [hx]
  by_cases hkind : (t.node x).kind = kind
  · refine ⟨t, false, by simp only [kind] at hkind; simp [hkind], h, fun _ => rfl, fun other => ?_⟩
    split
    · rename_i hother
      subst hother
      simp [account?, hx, accountAt, hkind, hkindactive]
    · rfl
  · obtain ⟨hl, s⟩ := h.linked.turn hlive hroot (h.linked.leaf hleaf) kind (t.node x).ledger
      (fun _ => hkindleaf) (f := fun n => { n with kind := kind }) rfl
    refine ⟨_, true, by simp only [kind] at hkind ⊢; simp [hkind], ⟨hl, ?_, ?_⟩, by simp,
      fun other => ?_⟩
    · exact s.branching hkindleaf h.branching (by simp)
    · exact s.registered hkindleaf h.registered hleaf
    · rw [s.account? h.registered hx other, hkindactive]
      rfl

theorem eq_of_setActivity {active : Bool} (ht : t.setActivity client active = .ok (t', false)) :
    t' = t := by
  unfold setActivity at ht
  split at ht
  · exact absurd ht (by simp)
  · dsimp only at ht
    generalize (if active then NodeKind.active else .inactive) = kind at ht
    split at ht
    · exact (Prod.mk.inj (Except.ok.inj ht)).1.symm
    · exact absurd ht (by simp)

/-! ## Weights -/

theorem forgetWithin_induction {motive : RoleTree α ω → Prop}
    (hforget : ∀ t id, motive t → motive (t.modify id fun n => { n with weight := none }))
    (depth : Nat) (id : NodeId) (ht : motive t) : motive (t.forgetWithin depth id) := by
  induction depth generalizing t id with
  | zero => exact ht
  | succ depth ih =>
    simp only [forgetWithin]
    apply List.foldlRecOn
    · exact hforget t id ht
    · exact fun u hu child _ => ih child hu

theorem keepWithin_induction [Weight ω] {motive : RoleTree α ω → Prop} {weights : Table ω}
    (hkeep : ∀ t id, motive t → motive (t.keepWeight weights id)) (live : List NodeId)
    (depth : Nat) (id : NodeId) (ht : motive t) : motive (keepWithin weights live depth t id) := by
  induction depth generalizing t id with
  | zero => exact ht
  | succ depth ih =>
    simp only [keepWithin]
    split
    · apply List.foldlRecOn
      · apply List.foldlRecOn
        · exact ht
        · exact fun u hu child _ => hkeep u child hu
      · exact fun u hu child _ => ih child hu
    · exact ht

/-- The trees differ in weights only. -/
structure SameHoldings (t t' : RoleTree α ω) : Prop extends SameLinks t t' where
  clients : t'.clients = t.clients
  ledger : ∀ id, (t'.node id).ledger = (t.node id).ledger

namespace SameHoldings

theorem refl (t : RoleTree α ω) : SameHoldings t t := ⟨.refl t, rfl, fun _ => rfl⟩

theorem trans {t'' : RoleTree α ω} (s : SameHoldings t t') (s' : SameHoldings t' t'') :
    SameHoldings t t'' :=
  ⟨s.toSameLinks.trans s'.toSameLinks, s'.clients.trans s.clients,
    fun id => (s'.ledger id).trans (s.ledger id)⟩

theorem modify (t : RoleTree α ω) (id : NodeId) (f : Node α ω → Option ω) :
    SameHoldings t (t.modify id fun n => { n with weight := f n }) :=
  ⟨SameLinks.modify t id fun n => ⟨f n, n.ledger, rfl⟩, rfl,
    apply_node_modify _ _ _ Node.ledger fun _ => rfl⟩

theorem forgetWeights (t : RoleTree α ω) (id : NodeId) : SameHoldings t (t.forgetWeights id) :=
  forgetWithin_induction (fun u _ hu => hu.trans (modify u _ fun _ => none)) _ id (refl t)

theorem keepWeight [Weight ω] (t : RoleTree α ω) (weights : Table ω) (id : NodeId) :
    SameHoldings t (t.keepWeight weights id) :=
  modify t id _

theorem keepWeights [Weight ω] (t : RoleTree α ω) (weights : Table ω) :
    SameHoldings t (t.keepWeights weights) :=
  keepWithin_induction (fun u id hu => hu.trans (keepWeight u weights id)) _ _ _ (refl t)

theorem account? (s : SameHoldings t t') (client : String) :
    t'.account? client = t.account? client :=
  account?_congr (client?_congr s.clients client) (fun id _ => s.kind id) fun id _ => s.ledger id

end SameHoldings

/-! ## Calls -/

/-- A call on a tree. Weights are looked up and forgotten for any slot. -/
inductive TreeCall (ω : Type)
  | add (client : String)
  | remove (client : String)
  | setActivity (client : String) (active : Bool)
  | keepWeight (weights : Table ω) (id : NodeId)
  | forgetWeights (id : NodeId)

variable [Weight ω]

def call (t : RoleTree α ω) : TreeCall ω → RoleTree α ω
  | .add client => match t.add client with
    | .ok t' => t'
    | .error _ => t
  | .remove client => match t.remove client with
    | .ok (t', _) => t'
    | .error _ => t
  | .setActivity client active => match t.setActivity client active with
    | .ok (t', _) => t'
    | .error _ => t
  | .keepWeight weights id => t.keepWeight weights id
  | .forgetWeights id => t.forgetWeights id

def after (calls : List (TreeCall ω)) : RoleTree α ω := calls.foldl call {}

/-- The clients after a call, and which of them are active: a flat table in the place of a tree. -/
def TreeCall.register (flags : Table Bool) : TreeCall ω → Table Bool
  | .add client => match RolePath.split client with
    | .ok _ => if flags.contains client then flags else flags.insert client false
    | .error _ => flags
  | .remove client => flags.erase client
  | .setActivity client active =>
    if flags.contains client then flags.insert client active else flags
  | .keepWeight _ _ => flags
  | .forgetWeights _ => flags

def flagsAfter (calls : List (TreeCall ω)) : Table Bool := calls.foldl TreeCall.register {}

/-! ## The root -/

section Top

variable (t : RoleTree α ω)

omit [Weight ω]

@[simp]
theorem top_grow (p : NodeId) (names : List String) : (t.grow p names).1.top = t.top := by
  induction names generalizing t p with
  | nil => rfl
  | cons name names ih => rw [grow, ih, top_sprout]

@[simp]
theorem top_plant (names : List String) : (t.plant names).1.top = t.top := by
  unfold plant
  split
  · exact t.top_sprout _ _ _
  · dsimp only
    split <;> simp

@[simp]
theorem top_tidy (x : NodeId) : (t.tidy x).top = t.top := by
  unfold tidy
  split
  · simp
  · split <;> simp
  · rfl

@[simp]
theorem top_tidyUp (steps : Nat) (x : NodeId) : (t.tidyUp steps x).top = t.top := by
  induction steps generalizing t x with
  | zero => rfl
  | succ steps ih =>
    rw [tidyUp]
    split
    · rfl
    · split
      · rfl
      · rw [ih, top_tidy]

variable {t}

theorem top_of_add (ht : t.add client = .ok t') : t'.top = t.top := by
  unfold add at ht
  split at ht
  · cases ht
  · split at ht
    · cases ht
    · cases ht
      exact t.top_plant _

theorem top_of_remove {ledger : Ledger α} (ht : t.remove client = .ok (t', ledger)) :
    t'.top = t.top := by
  unfold remove at ht
  split at ht
  · cases ht
  · cases ht
    simp

theorem top_of_setActivity {active changed : Bool}
    (ht : t.setActivity client active = .ok (t', changed)) : t'.top = t.top := by
  unfold setActivity at ht
  split at ht
  · cases ht
  · dsimp only at ht
    generalize (if active then NodeKind.active else .inactive) = kind at ht
    split at ht
    · cases ht
      rfl
    · cases ht
      simp

end Top

theorem top_call (t : RoleTree α ω) (c : TreeCall ω) : (t.call c).top = t.top := by
  cases c with
  | add client =>
    rw [call]
    split
    · rename_i ht
      exact top_of_add ht
    · rfl
  | remove client =>
    rw [call]
    split
    · rename_i ht
      exact top_of_remove ht
    · rfl
  | setActivity client active =>
    rw [call]
    split
    · rename_i ht
      exact top_of_setActivity ht
    · rfl
  | keepWeight weights id => exact (SameHoldings.keepWeight t weights id).top
  | forgetWeights id => exact (SameHoldings.forgetWeights t id).top

/-- The root of the first tree is the root of every later one. -/
theorem top_after (calls : List (TreeCall ω)) : (after calls : RoleTree α ω).top = root :=
  List.foldlRecOn (motive := fun t : RoleTree α ω => t.top = root) calls call rfl
    fun t ht c _ => (top_call t c).trans ht

/-! ## What histories leave -/

omit [Weight ω] in
theorem sound_empty : (empty : RoleTree α ω).Sound := by
  have hlive (id : NodeId) : (empty : RoleTree α ω).Live id ↔ id = root := by
    cases id <;> simp [Live, node?, empty, root]
  have htop : (empty : RoleTree α ω).top = root := rfl
  have hnode (id : NodeId) : (empty : RoleTree α ω).node id = bareNode "" "" .internal none := by
    by_cases h : id = root
    · subst h
      rfl
    · exact node_of_not_live (mt (hlive id).mp h)
  refine ⟨?_, ?_, ?_⟩
  · constructor
    case free => exact ⟨List.nodup_nil, fun id => by simp [hlive]; simp [empty, root]⟩
    all_goals simp [htop, hlive, hnode, bareNode, NodeKind.isLeaf, RolePath.ownLeaf]
  · intro id hid _ hroot
    exact absurd ((hlive id).mp hid) hroot
  · intro client id
    refine iff_of_false (by simp [client?, empty]) ?_
    rintro ⟨-, -, hleaf, -⟩
    rw [hnode] at hleaf
    simp [bareNode, NodeKind.isLeaf] at hleaf

/-- The accounts of a tree whose clients hold nothing. -/
def Flagged (t : RoleTree α ω) (flags : Table Bool) : Prop :=
  ∀ client, t.account? client = (flags.get? client).map fun active => ⟨active, {}⟩

variable {flags : Table Bool}

omit [Weight ω] in
theorem Flagged.account?_eq_some {active : Bool} (h : t.Flagged flags)
    (hclient : flags.get? client = some active) : t.account? client = some ⟨active, {}⟩ := by
  rw [h client, hclient, Option.map_some]

omit [Weight ω] in
theorem Flagged.account?_eq_none (h : t.Flagged flags) (hclient : flags.get? client = none) :
    t.account? client = none := by
  rw [h client, hclient, Option.map_none]

theorem Sound.call_add (h : t.Sound) (hflags : t.Flagged flags) (client : String) :
    (t.call (.add client : TreeCall ω)).Sound ∧
      (t.call (.add client : TreeCall ω)).Flagged ((.add client : TreeCall ω).register flags) := by
  simp only [RoleTree.call, TreeCall.register]
  cases hsplit : RolePath.split client with
  | error fault =>
    rw [t.add_eq_error_of_invalid hsplit]
    exact ⟨h, hflags⟩
  | ok names =>
    cases hclient : flags.get? client with
    | some active =>
      rw [add_eq_error_of_present hsplit (hflags.account?_eq_some hclient)]
      simp only [Table.contains_of_get?_eq_some hclient, if_true]
      exact ⟨h, hflags⟩
    | none =>
      obtain ⟨t', ht, hs, haccount⟩ := h.add_eq_ok hsplit (hflags.account?_eq_none hclient)
      rw [ht]
      refine ⟨hs, fun other => ?_⟩
      simp only [haccount, hflags other, Table.contains_of_get?_eq_none hclient,
        Bool.false_eq_true, if_false, Table.get?_insert]
      split <;> rfl

theorem Sound.call_remove (h : t.Sound) (hflags : t.Flagged flags) (client : String) :
    (t.call (.remove client : TreeCall ω)).Sound ∧
      (t.call (.remove client : TreeCall ω)).Flagged
        ((.remove client : TreeCall ω).register flags) := by
  simp only [RoleTree.call, TreeCall.register]
  cases hclient : flags.get? client with
  | some active =>
    obtain ⟨t', ht, hs, haccount⟩ := h.remove_eq_ok (hflags.account?_eq_some hclient)
    rw [ht]
    refine ⟨hs, fun other => ?_⟩
    rw [haccount, hflags other, Table.get?_erase]
    split <;> rfl
  | none =>
    rw [remove_eq_error (hflags.account?_eq_none hclient)]
    refine ⟨h, fun other => ?_⟩
    rw [hflags other, Table.get?_erase]
    split
    · rename_i hother
      rw [← hother, hclient]
    · rfl

theorem Sound.call_setActivity (h : t.Sound) (hflags : t.Flagged flags) (client : String)
    (active : Bool) :
    (t.call (.setActivity client active : TreeCall ω)).Sound ∧
      (t.call (.setActivity client active : TreeCall ω)).Flagged
        ((.setActivity client active : TreeCall ω).register flags) := by
  simp only [RoleTree.call, TreeCall.register]
  cases hclient : flags.get? client with
  | some before =>
    obtain ⟨t', changed, ht, hs, -, haccount⟩ :=
      h.setActivity_eq_ok (hflags.account?_eq_some hclient) active
    rw [ht]
    refine ⟨hs, fun other => ?_⟩
    simp only [haccount, hflags other, Table.contains_of_get?_eq_some hclient, if_true,
      Table.get?_insert]
    split <;> rfl
  | none =>
    rw [setActivity_eq_error (hflags.account?_eq_none hclient)]
    simp only [Table.contains_of_get?_eq_none hclient, Bool.false_eq_true, if_false]
    exact ⟨h, hflags⟩

omit [Weight ω] in
theorem SameHoldings.flagged (s : SameHoldings t t') (hflags : t.Flagged flags) :
    t'.Flagged flags :=
  fun client => (s.account? client).trans (hflags client)

/-- One call takes the flat table where it takes the tree. -/
theorem Sound.call (h : t.Sound) (hflags : t.Flagged flags) (c : TreeCall ω) :
    (t.call c).Sound ∧ (t.call c).Flagged (c.register flags) := by
  cases c with
  | add client => exact h.call_add hflags client
  | remove client => exact h.call_remove hflags client
  | setActivity client active => exact h.call_setActivity hflags client active
  | keepWeight weights id =>
    have s := SameHoldings.keepWeight t weights id
    exact ⟨s.sound s.clients h, s.flagged hflags⟩
  | forgetWeights id =>
    have s := SameHoldings.forgetWeights t id
    exact ⟨s.sound s.clients h, s.flagged hflags⟩

theorem Sound.calls (h : t.Sound) (hflags : t.Flagged flags) (calls : List (TreeCall ω)) :
    (calls.foldl RoleTree.call t).Sound ∧
      (calls.foldl RoleTree.call t).Flagged (calls.foldl TreeCall.register flags) := by
  induction calls generalizing t flags with
  | nil => exact ⟨h, hflags⟩
  | cons c calls ih =>
    obtain ⟨hs, hf⟩ := h.call hflags c
    exact ih hs hf

theorem sound_after (calls : List (TreeCall ω)) :
    (after calls : RoleTree α ω).Sound ∧
      (after calls : RoleTree α ω).Flagged (flagsAfter calls) :=
  sound_empty.calls (fun _ => rfl) calls

end RoleLottery.RoleTree
