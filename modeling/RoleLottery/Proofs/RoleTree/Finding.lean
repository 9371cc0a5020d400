import RoleLottery.Proofs.RoleTree.Shape

/-!
# Finding nodes by their paths

To follow the names on a path from the root leads to the node with that path, if there is one. The
path of a client leads to its leaf, or to the role that the leaf of its own stands below.
-/

namespace RoleLottery.RoleTree

variable {α ω : Type} {t : RoleTree α ω} {x p : NodeId} {path client : String}
  {names : List String}

theorem Linked.of_foldlM_child? (h : t.Linked []) (hp : t.Live p)
    (hx : names.foldlM t.child? p = some x) :
    t.Live x ∧ (t.node x).path = RolePath.joinAll (t.node p).path names ∧
      (∀ name ∈ names, RolePath.IsName name) ∧ (names ≠ [] → x ≠ t.top) := by
  induction names generalizing p with
  | nil =>
    obtain rfl := Option.some.inj hx
    exact ⟨hp, rfl, by simp, by simp⟩
  | cons name names ih =>
    rw [List.foldlM_cons] at hx
    cases hchild : t.child? p name with
    | none =>
      rw [hchild] at hx
      exact absurd hx (by simp)
    | some c =>
      rw [hchild] at hx
      obtain ⟨hmem, hname⟩ := h.child?_eq_some_iff.mp hchild
      obtain ⟨hc, -, -, hpath⟩ := h.down hmem
      have hcroot := h.child_ne_root hmem
      obtain ⟨hlive, hxpath, hnames, hroot⟩ := ih hc hx
      have hisName : RolePath.IsName name := hname ▸ h.named hc hcroot
      refine ⟨hlive, ?_, List.forall_mem_cons.mpr ⟨hisName, hnames⟩, fun _ => ?_⟩
      · rw [hxpath, hpath, hname]
        rfl
      · cases names with
        | nil =>
          obtain rfl := Option.some.inj hx
          exact hcroot
        | cons other names => exact hroot (List.cons_ne_nil other names)

theorem Linked.find?_path (h : t.Linked []) (hx : t.Live x) (hroot : x ≠ t.top) :
    t.find? (t.node x).path = some x := by
  refine h.induction_down (motive := fun x => x ≠ t.top → t.find? (t.node x).path = some x) ?_ ?_
    hx hroot
  · exact fun hne => absurd rfl hne
  · intro p c hmem ih _
    obtain ⟨hc, -, -, hpath⟩ := h.down hmem
    have hchild := h.child?_eq_some_iff.mpr ⟨hmem, rfl⟩
    rw [find?, hpath, RolePath.segments_join _ (h.named hc (h.child_ne_root hmem))]
    by_cases hp : p = t.top
    · subst hp
      rw [if_pos h.root_path, List.foldlM_cons, hchild]
      rfl
    · obtain ⟨q, -, hpmem⟩ := h.up (live_of_mem_children hmem) hp List.not_mem_nil
      have hparent := ih hp
      rw [find?] at hparent
      rw [if_neg (h.path_ne_empty hpmem), List.foldlM_append, hparent]
      change [(t.node c).name].foldlM t.child? p = some c
      rw [List.foldlM_cons, hchild]
      rfl

theorem Linked.find?_eq_some_iff (h : t.Linked []) :
    t.find? path = some x ↔ t.Live x ∧ x ≠ t.top ∧ (t.node x).path = path := by
  constructor
  · intro hx
    obtain ⟨hlive, hpath, hnames, hroot⟩ := h.of_foldlM_child? h.root_live hx
    refine ⟨hlive, hroot (RolePath.segments_ne_nil path), ?_⟩
    rw [hpath, h.root_path, RolePath.joinAll_segments hnames]
  · rintro ⟨hlive, hroot, rfl⟩
    exact h.find?_path hlive hroot

/-! ## Clients -/

theorem Sound.find?_client (h : t.Sound) (hclient : t.client? client = some x)
    (hname : (t.node x).name ≠ RolePath.ownLeaf) : t.find? client = some x := by
  obtain ⟨hlive, hleaf, ⟨-, hpath⟩ | ⟨hown, -⟩⟩ := h.leaf_cases hclient
  · exact h.linked.find?_eq_some_iff.mpr ⟨hlive, h.linked.ne_root_of_leaf hleaf, hpath⟩
  · exact absurd hown hname

theorem Sound.find?_own (h : t.Sound) (hclient : t.client? client = some x)
    (hname : (t.node x).name = RolePath.ownLeaf) :
    ∃ role, (t.node x).parent = some role ∧ (t.node role).kind = .internal ∧
      t.find? client = some role ∧ t.find? (client ++ "/" ++ RolePath.ownLeaf) = some x := by
  obtain ⟨hlive, hleaf, ⟨hne, -⟩ | ⟨-, role, hroot, hmem, hrole, hpath⟩⟩ := h.leaf_cases hclient
  · exact absurd hname hne
  · refine ⟨role, (h.linked.down hmem).2.2.1, h.linked.kind_of_child hmem, ?_, ?_⟩
    · exact h.linked.find?_eq_some_iff.mpr ⟨live_of_mem_children hmem, hroot, hrole⟩
    · exact h.linked.find?_eq_some_iff.mpr ⟨hlive, h.linked.ne_root_of_leaf hleaf, hpath⟩

/-- A path is found iff a node below the root has it, and then that one node is found. -/
structure Finds (t : RoleTree α ω) : Prop where
  isSome_iff : ∀ path, (t.find? path).isSome ↔
    ∃ x, t.Reached x ∧ x ≠ t.top ∧ (t.node x).path = path
  eq_some_iff : ∀ path x, t.find? path = some x ↔
    t.Reached x ∧ x ≠ t.top ∧ (t.node x).path = path
  unique : ∀ x y, t.Reached x → t.Reached y → (t.node x).path = (t.node y).path → x = y
  plain : ∀ client leaf, t.client? client = some leaf → (t.node leaf).name ≠ RolePath.ownLeaf →
    t.find? client = some leaf
  own : ∀ client leaf, t.client? client = some leaf → (t.node leaf).name = RolePath.ownLeaf →
    ∃ role, (t.node leaf).parent = some role ∧ (t.node role).kind = .internal ∧
      t.find? client = some role ∧ t.find? (client ++ "/" ++ RolePath.ownLeaf) = some leaf

theorem Sound.finds (h : t.Sound) : Finds t := by
  have hfind (path : String) (x : NodeId) : t.find? path = some x ↔
      t.Reached x ∧ x ≠ t.top ∧ (t.node x).path = path := by
    rw [h.linked.find?_eq_some_iff, h.linked.reached_iff]
  constructor
  case isSome_iff =>
    intro path
    simp only [Option.isSome_iff_exists, hfind]
  case eq_some_iff => exact hfind
  case unique =>
    intro x y hx hy
    exact h.linked.path_injective (h.linked.reached_iff.mp hx) (h.linked.reached_iff.mp hy)
  case plain => exact fun _ _ => h.find?_client
  case own => exact fun _ _ => h.find?_own

/-- After any calls the paths of all nodes below the root are found, and no others. -/
theorem finds_after [Weight ω] (calls : List (TreeCall ω)) :
    Finds (after calls : RoleTree α ω) :=
  (sound_after calls).1.finds

/-- The client `a` got a leaf of its own, in the slot of its first one, below the role `a`. -/
theorem finds_after_own :
    let t : RoleTree Int Rat := after [.add "a", .add "a/b"]
    t.client? "a" = some 1 ∧ (t.node 1).name = RolePath.ownLeaf ∧
      ∃ role, (t.node 1).parent = some role ∧ (t.node role).kind = .internal ∧
        t.find? "a" = some role ∧ t.find? ("a" ++ "/" ++ RolePath.ownLeaf) = some 1 := by
  intro t
  have hclient : t.client? "a" = some 1 := by decide
  have hname : (t.node 1).name = RolePath.ownLeaf := by decide
  exact ⟨hclient, hname, (finds_after [.add "a", .add "a/b"]).own "a" 1 hclient hname⟩

end RoleLottery.RoleTree
