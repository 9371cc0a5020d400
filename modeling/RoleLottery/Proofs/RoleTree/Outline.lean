import RoleLottery.Proofs.RoleTree.ActiveRoles
import RoleLottery.RoleTree.Outline

/-!
# The order of the outline

The outline has a line for each node, and a node stands before what is below it. The shares list the
active clients in the same order.
-/

namespace RoleLottery

theorem RolePath.getLast?_segments_join (p : String) {name : String} (h : IsName name) :
    (segments (join p name)).getLast? = some name := by
  rw [segments_join p h]
  split <;> simp

namespace RoleTree

variable {α ω υ : Type} {t : RoleTree α ω} {x : NodeId} {client : String}

/-! ## Lines -/

def indentedLine (t : RoleTree α ω) (x : NodeId) : String :=
  String.ofList (List.replicate (2 * RolePath.depth (t.node x).path) ' ') ++ t.line x

theorem foldl_append_eq_join (f : NodeId → String) (ids : List NodeId) (text : String) :
    ids.foldl (fun text id => text ++ f id) text = text ++ String.join (ids.map f) := by
  induction ids generalizing text with
  | nil => simp
  | cons id ids ih => rw [List.foldl_cons, ih, List.map_cons, String.join_cons, String.append_assoc]

private theorem join_flatMap (f : NodeId → List String) (ids : List NodeId) :
    String.join (ids.flatMap f) = String.join (ids.map fun id => String.join (f id)) := by
  induction ids with
  | nil => rfl
  | cons id ids ih =>
    rw [List.flatMap_cons, String.join_append, ih, List.map_cons, String.join_cons]

theorem Linked.outlineWithin_eq (h : t.Linked []) (depth : Nat) (x : NodeId) :
    t.outlineWithin depth (2 * RolePath.depth (t.node x).path) x =
      String.join ((t.within depth x).map t.indentedLine) := by
  induction depth generalizing x with
  | zero => rfl
  | succ depth ih =>
    have hbelow : (t.node x).children.map
        (t.outlineWithin depth (2 * RolePath.depth (t.node x).path + 2)) =
        (t.node x).children.map fun c => String.join ((t.within depth c).map t.indentedLine) := by
      apply List.map_congr_left
      intro c hc
      rw [← ih c, h.depth_child hc, Nat.mul_succ]
    rw [outlineWithin, foldl_append_eq_join, hbelow, within, List.map_cons, String.join_cons,
      List.map_flatMap, join_flatMap]
    rfl

/-- The outline is the text of all lines, in the order of a walk from the root. -/
theorem Linked.outline_eq (h : t.Linked []) :
    t.outline = String.join ((t.within t.slots.size t.top).map t.indentedLine) := by
  have houtline := h.outlineWithin_eq t.slots.size t.top
  rw [h.root_path] at houtline
  exact houtline

/-! ## Clients -/

theorem Sound.map_sharesWithin [Weight υ] (h : t.Sound) (weigh : NodeId → υ) (depth : Nat)
    (x : NodeId) (share : υ) : (t.sharesWithin weigh t.live depth x share).map (·.1) =
      (t.activeWithin depth x).map t.clientOf := by
  induction depth generalizing x share with
  | zero => rfl
  | succ depth ih =>
    rw [sharesWithin]
    cases hkind : (t.node x).kind with
    | inactive =>
      rw [h.linked.activeWithin_inactive hkind]
      rfl
    | active =>
      rw [h.linked.activeWithin_leaf hkind]
      rfl
    | internal =>
      dsimp only
      rw [h.liveChildren_eq, h.linked.activeWithin_succ hkind, List.map_flatMap, List.map_flatMap]
      simp only [ih]
      -- Whatever the parts are, there is one for each child.
      generalize (t.node x).children.filter t.leadsToActive = children
      have hparts : (children.zip (divide share (children.map weigh))).map (·.1) = children :=
        List.map_fst_zip (by simp [divide])
      conv_rhs => rw [← hparts, List.flatMap_map]

variable [Weight ω]

theorem Sound.map_shares (h : t.Sound) (weights : Table ω) : (t.shares weights).map (·.1) =
    (t.activeWithin t.slots.size t.top).map t.clientOf :=
  h.map_sharesWithin (t.weight weights) t.slots.size t.top Weight.one

theorem Sound.mem_map_shares (h : t.Sound) (weights : Table ω) (client : String) :
    client ∈ (t.shares weights).map (·.1) ↔ t.IsActiveClient client := by
  rw [h.map_shares, List.mem_map]
  constructor
  · rintro ⟨x, hx, rfl⟩
    have hkind := h.linked.mem_activeWithin_root.mp hx
    exact ⟨x, h.client?_of_active hkind, hkind⟩
  · rintro ⟨x, hclient, hkind⟩
    exact ⟨x, h.linked.mem_activeWithin_root.mpr hkind, ((h.registered client x).mp hclient).2.2.2⟩

omit [Weight ω] in
theorem Linked.getLast?_path (h : t.Linked []) (hx : t.Live x) (hroot : x ≠ t.top) :
    (RolePath.segments (t.node x).path).getLast? = some (t.node x).name := by
  obtain ⟨p, -, hmem⟩ := h.up hx hroot List.not_mem_nil
  rw [(h.down hmem).2.2.2, RolePath.getLast?_segments_join _ (h.named hx hroot)]

omit [Weight ω] in
theorem Sound.getLast?_client (h : t.Sound) (hclient : t.client? client = some x) :
    (RolePath.segments client).getLast? ≠ some RolePath.ownLeaf := by
  obtain ⟨hlive, hleaf, ⟨hname, rfl⟩ | ⟨-, p, hp, hmem, rfl, -⟩⟩ := h.leaf_cases hclient
  · rw [h.linked.getLast?_path hlive (h.linked.ne_root_of_leaf hleaf)]
    exact fun hlast => hname (Option.some.inj hlast)
  · rw [h.linked.getLast?_path (live_of_mem_children hmem) hp]
    exact fun hlast => h.linked.name_ne_of_child hmem (Option.some.inj hlast)

end RoleTree

end RoleLottery
