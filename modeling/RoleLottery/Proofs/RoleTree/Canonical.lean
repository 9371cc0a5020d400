import RoleLottery.Proofs.RoleTree.Recast
import RoleLottery.Proofs.RoleTree.Shape

/-!
# The tree of a table of clients

Which nodes a tree has is decided by the clients alone, whatever the calls were and in whatever
order they came.
-/

namespace RoleLottery.RoleTree

variable {α ω : Type} {t t' : RoleTree α ω} {flags : Table Bool} {client : String}

def HasClientBelow (flags : Table Bool) (role : String) : Prop :=
  ∃ client, flags.contains client ∧ RolePath.Extends client role

/-- The nodes besides the root are those that the clients in the table call for, once each. -/
structure Canonical (flags : Table Bool) (t : RoleTree α ω) : Prop where
  root : t.Live t.top ∧ (t.node t.top).kind = .internal ∧ (t.node t.top).path = ""
  internal : ∀ role,
    (∃ x, t.Live x ∧ x ≠ t.top ∧ (t.node x).kind = .internal ∧ (t.node x).path = role) ↔
      HasClientBelow flags role
  plain : ∀ client,
    (∃ x, t.Live x ∧ (t.node x).kind.isLeaf ∧ (t.node x).name ≠ RolePath.ownLeaf ∧
      (t.node x).path = client) ↔ flags.contains client ∧ ¬ HasClientBelow flags client
  own : ∀ client,
    (∃ x, t.Live x ∧ (t.node x).kind.isLeaf ∧ (t.node x).name = RolePath.ownLeaf ∧
      (t.node x).path = client ++ "/" ++ RolePath.ownLeaf) ↔
        flags.contains client ∧ HasClientBelow flags client
  once : ∀ {x y}, t.Live x → t.Live y → (t.node x).path = (t.node y).path → x = y
  complete : ∀ {x}, t.Live x → x = t.top ∨
    (t.node x).kind = .internal ∧ HasClientBelow flags (t.node x).path ∨
    (t.node x).kind.isLeaf ∧ (t.node x).name ≠ RolePath.ownLeaf ∧
      flags.contains (t.node x).path ∧ ¬ HasClientBelow flags (t.node x).path ∨
    (t.node x).kind.isLeaf ∧ (t.node x).name = RolePath.ownLeaf ∧
      ∃ client, (t.node x).path = client ++ "/" ++ RolePath.ownLeaf ∧
        flags.contains client ∧ HasClientBelow flags client
  active : ∀ {x}, t.Live x → (t.node x).kind.isLeaf →
    ((t.node x).kind = .active ↔ flags.get? (t.clientOf x) = some true)

theorem Flagged.isSome_client? (h : t.Flagged flags) (client : String) :
    (t.client? client).isSome = flags.contains client := by
  have haccount := congrArg Option.isSome (h client)
  rw [account?, Option.isSome_map, Option.isSome_map] at haccount
  exact haccount

theorem Sound.active_iff (h : t.Sound) (hflags : t.Flagged flags) {x : NodeId} (hx : t.Live x)
    (hleaf : (t.node x).kind.isLeaf) :
    (t.node x).kind = .active ↔ flags.get? (t.clientOf x) = some true := by
  have haccount := hflags (t.clientOf x)
  rw [account?, h.client?_clientOf hx hleaf, Option.map_some, accountAt] at haccount
  cases hflag : flags.get? (t.clientOf x) with
  | none =>
    rw [hflag] at haccount
    simp at haccount
  | some active =>
    rw [hflag, Option.map_some, Option.some.injEq, Account.mk.injEq] at haccount
    rw [← haccount.1]
    simp

theorem Sound.canonical (h : t.Sound) (hflags : t.Flagged flags) : Canonical flags t := by
  have hclients := hflags.isSome_client?
  have hbelow (role : String) : HasClientBelow flags role ↔
      ∃ client, (t.client? client).isSome ∧ RolePath.Extends client role := by
    simp only [HasClientBelow, hclients]
  constructor
  case root => exact ⟨h.linked.root_live, h.linked.root_kind, h.linked.root_path⟩
  case internal =>
    intro role
    rw [hbelow]
    exact h.internal_iff role
  case plain =>
    intro client
    rw [hbelow, ← hclients]
    exact h.plain_iff client
  case own =>
    intro client
    rw [hbelow, ← hclients]
    exact h.own_iff client
  case once => exact h.linked.path_injective
  case complete =>
    intro x hx
    simp only [hbelow, ← hclients]
    by_cases hkind : (t.node x).kind = .internal
    · by_cases hroot : x = t.top
      · exact .inl hroot
      · exact .inr (.inl ⟨hkind, h.exists_client hx hroot hkind⟩)
    · have hleaf := isLeaf_iff.mpr hkind
      obtain ⟨-, -, ⟨hname, -⟩ | ⟨hname, -, -, -, -, hpath⟩⟩ :=
        h.leaf_cases (h.client?_clientOf hx hleaf)
      · exact .inr (.inr (.inl ⟨hleaf, hname, (h.plain_iff _).mp ⟨x, hx, hleaf, hname, rfl⟩⟩))
      · exact .inr (.inr (.inr ⟨hleaf, hname, _, hpath,
          (h.own_iff _).mp ⟨x, hx, hleaf, hname, hpath⟩⟩))
  case active => exact h.active_iff hflags

theorem Flagged.account?_eq (h : t.Flagged flags) (h' : t'.Flagged flags) (client : String) :
    t'.account? client = t.account? client :=
  (h' client).trans (h client).symm

/-! ## Nodes that hold nothing -/

def TreeCall.keepsWeight : TreeCall ω → Bool
  | .keepWeight _ _ => true
  | _ => false

def Bare (t : RoleTree α ω) : Prop :=
  ∀ id, (t.node id).weight = none ∧ (t.node id).ledger = {}

def strip : Recast α α ω ω := Recast.dropAll

theorem bare_of_strip_eq (h : strip.tree t = t) : t.Bare := by
  intro id
  have hnode := strip.node_tree t id
  rw [h] at hnode
  exact ⟨congrArg Node.weight hnode, congrArg Node.ledger hnode⟩

theorem strip_add (h : strip.tree t = t) (hadd : t.add client = .ok t') : strip.tree t' = t' := by
  have hstrip := strip.add_tree t client
  rw [h, hadd] at hstrip
  exact (Except.ok.inj hstrip).symm

theorem strip_remove {ledger : Ledger α} (h : strip.tree t = t)
    (hremove : t.remove client = .ok (t', ledger)) : strip.tree t' = t' := by
  have hstrip := strip.remove_tree t client
  rw [h, hremove] at hstrip
  exact (congrArg Prod.fst (Except.ok.inj hstrip)).symm

theorem strip_setActivity {active changed : Bool} (h : strip.tree t = t)
    (hset : t.setActivity client active = .ok (t', changed)) : strip.tree t' = t' := by
  have hstrip := strip.setActivity_tree t client active
  rw [h, hset] at hstrip
  exact (congrArg Prod.fst (Except.ok.inj hstrip)).symm

theorem strip_forgetWeights (h : strip.tree t = t) (id : NodeId) :
    strip.tree (t.forgetWeights id) = t.forgetWeights id := by
  refine forgetWithin_induction (motive := fun t => strip.tree t = t) (fun u id hu => ?_) _ id h
  rw [← strip.tree_modify u (f := fun n => { n with weight := none })
    (g := fun n => { n with weight := none }) (fun n => rfl), hu]

/-! ## Histories -/

variable [Weight ω]

omit [Weight ω] in
theorem flagsAfter_append (calls more : List (TreeCall ω)) :
    flagsAfter (calls ++ more) = more.foldl TreeCall.register (flagsAfter calls) :=
  List.foldl_append

omit [Weight ω] in
theorem flagsAfter_add_remove (calls : List (TreeCall ω))
    (hclient : (flagsAfter calls).get? client = none) :
    flagsAfter (calls ++ [.add client, .remove client]) = flagsAfter calls := by
  rw [flagsAfter_append]
  apply Table.ext_get?
  intro other
  simp only [List.foldl_cons, List.foldl_nil, TreeCall.register, Table.get?_erase,
    Table.contains_of_get?_eq_none hclient, Bool.false_eq_true, if_false]
  split
  · rename_i hother
    rw [← hother, hclient]
  · rename_i hother
    split
    · rw [Table.get?_insert, if_neg hother]
    · rfl

theorem exists_alike_after {calls calls' : List (TreeCall ω)}
    (hflags : flagsAfter calls' = flagsAfter calls) :
    ∃ f, Alike (after calls : RoleTree α ω) (after calls') f := by
  obtain ⟨h, hf⟩ := sound_after (α := α) calls
  obtain ⟨h', hf'⟩ := sound_after (α := α) calls'
  rw [hflags] at hf'
  exact h.exists_alike h' (hf.account?_eq hf')

theorem strip_call (h : strip.tree t = t) {c : TreeCall ω} (hc : c.keepsWeight = false) :
    strip.tree (t.call c) = t.call c := by
  cases c with
  | add client =>
    simp only [RoleTree.call]
    cases hadd : t.add client with
    | error fault => exact h
    | ok t' => exact strip_add h hadd
  | remove client =>
    simp only [RoleTree.call]
    cases hremove : t.remove client with
    | error fault => exact h
    | ok removed => exact strip_remove h hremove
  | setActivity client active =>
    simp only [RoleTree.call]
    cases hset : t.setActivity client active with
    | error fault => exact h
    | ok changed => exact strip_setActivity h hset
  | keepWeight weights id => exact absurd hc (by simp [TreeCall.keepsWeight])
  | forgetWeights id => exact strip_forgetWeights h id

theorem bare_after {calls : List (TreeCall ω)} (hcalls : ∀ c ∈ calls, c.keepsWeight = false) :
    (after calls : RoleTree α ω).Bare := by
  apply bare_of_strip_eq
  unfold after
  refine List.foldlRecOn (motive := fun t => strip.tree t = t) calls _ ?_ ?_
  · exact strip.tree_empty
  · exact fun u hu c hc => strip_call hu (hcalls c hc)

/-- The nodes after any calls are a function of the clients and their flags. So a client that comes
and goes leaves the tree as it was, and the order of the calls does not matter. As long as no weight
was asked for, there is nothing more to the nodes. -/
theorem canonical_after (calls : List (TreeCall ω)) :
    Canonical (flagsAfter calls) (after calls : RoleTree α ω) ∧
      (∀ client, (flagsAfter calls).get? client = none →
        ∃ f, Alike (after calls : RoleTree α ω)
          (after (calls ++ [.add client, .remove client])) f) ∧
      (∀ calls', flagsAfter calls' = flagsAfter calls →
        ∃ f, Alike (after calls : RoleTree α ω) (after calls') f) ∧
      ((∀ c ∈ calls, c.keepsWeight = false) → (after calls : RoleTree α ω).Bare) := by
  obtain ⟨h, hflags⟩ := sound_after (α := α) calls
  refine ⟨h.canonical hflags, fun client hclient => ?_, fun calls' hflags' => ?_, bare_after⟩
  · exact exists_alike_after (flagsAfter_add_remove calls hclient)
  · exact exists_alike_after hflags'

/-- The client `a` gets a client below it before it is active, or afterwards. -/
theorem canonical_after_orders :
    (∃ f, Alike (after [.add "a", .setActivity "a" true, .add "a/b"] : RoleTree Int Rat)
      (after ([.add "a", .setActivity "a" true, .add "a/b"] ++ [.add "c", .remove "c"])) f) ∧
    (∃ f, Alike (after [.add "a", .setActivity "a" true, .add "a/b"] : RoleTree Int Rat)
      (after [.add "a/b", .add "a", .setActivity "a" true]) f) ∧
    Bare (after [.add "a", .setActivity "a" true, .add "a/b"] : RoleTree Int Rat) := by
  obtain ⟨-, hreturn, horder, hbare⟩ :=
    canonical_after (α := Int) ([.add "a", .setActivity "a" true, .add "a/b"] : List (TreeCall Rat))
  exact ⟨hreturn "c" (by decide), horder _ (by decide), hbare (by simp [TreeCall.keepsWeight])⟩

end RoleLottery.RoleTree
