import RoleLottery.Proofs.RoleTree.History
import RoleLottery.Proofs.RoleTree.Walks

/-!
# Slots that are looked into

The operations once more, in a form that fails when a slot that is looked into is not in use, when a
slot that is filled or emptied does not exist, when a role is folded back on a leaf that is not that
of its client, and when a bound on the steps is reached. On sound trees they do not fail, and do the
same as the operations without these checks.
-/

namespace RoleLottery.RoleTree

def TreeCall.slot? {ω : Type} : TreeCall ω → Option NodeId
  | .keepWeight _ id => some id
  | .forgetWeights id => some id
  | _ => none

namespace Checked

variable {α ω : Type}

/-! ## The operations -/

def modify (t : RoleTree α ω) (id : NodeId) (f : Node α ω → Node α ω) : Option (RoleTree α ω) := do
  let _ ← t.node? id
  return t.modify id f

def occupy (t : RoleTree α ω) (n : Node α ω) : Option (RoleTree α ω × NodeId) :=
  match t.free with
  | [] => some (t.occupy n)
  | id :: _ => if id < t.slots.size then some (t.occupy n) else none

def vacate (t : RoleTree α ω) (id : NodeId) : Option (RoleTree α ω) :=
  if id < t.slots.size then some (t.vacate id) else none

def enlist (t : RoleTree α ω) (parent child : NodeId) : Option (RoleTree α ω) := do
  let n ← t.node? child
  let last := n.kind = .inactive
  modify t parent fun n =>
    { n with children := if last then n.children ++ [child] else child :: n.children }

def unlist (t : RoleTree α ω) (child : NodeId) : Option (RoleTree α ω) := do
  let n ← t.node? child
  match n.parent with
  | some parent => modify t parent fun n => { n with children := n.children.filter (· ≠ child) }
  | none => return t

def relist (t : RoleTree α ω) (id : NodeId) : Option (RoleTree α ω) := do
  let n ← t.node? id
  match n.parent with
  | some parent =>
    let t ← unlist t id
    enlist t parent id
  | none => return t

def sprout (t : RoleTree α ω) (name : String) (kind : NodeKind) (parent : NodeId) :
    Option (RoleTree α ω × NodeId) := do
  let p ← t.node? parent
  let (t, id) ← occupy t (bareNode name (RolePath.join p.path name) kind (some parent))
  let t ← enlist t parent id
  return (t, id)

def splitLeaf (t : RoleTree α ω) (leaf : NodeId) : Option (RoleTree α ω × NodeId) := do
  let n ← t.node? leaf
  match n.parent with
  | none => return (t, leaf)
  | some parent =>
    let t ← unlist t leaf
    let (t, internal) ← sprout t n.name .internal parent
    let role ← t.node? internal
    let t ← modify t leaf fun n =>
      { n with
        name := RolePath.ownLeaf, path := RolePath.join role.path RolePath.ownLeaf
        parent := some internal, weight := none }
    let t ← enlist t internal leaf
    return (t, internal)

def firstNamed (t : RoleTree α ω) (name : String) : List NodeId → Option (Option NodeId)
  | [] => some none
  | id :: ids => do
    let n ← t.node? id
    if n.name = name then return some id else firstNamed t name ids

def child? (t : RoleTree α ω) (id : NodeId) (name : String) : Option (Option NodeId) := do
  let n ← t.node? id
  firstNamed t name n.children

def find? (t : RoleTree α ω) (id : NodeId) : List String → Option (Option NodeId)
  | [] => some (some id)
  | name :: names => do
    match ← child? t id name with
    | some child => find? t child names
    | none => return none

def follow (t : RoleTree α ω) (id : NodeId) : List String → Option (NodeId × List String)
  | [] => some (id, [])
  | name :: names => do
    match ← child? t id name with
    | some child => follow t child names
    | none => return (id, name :: names)

def grow (t : RoleTree α ω) (parent : NodeId) : List String → Option (RoleTree α ω × NodeId)
  | [] => some (t, parent)
  | name :: names => do
    let (t, child) ← sprout t name .internal parent
    grow t child names

/-- The last node on the way, made a role when it is a leaf. -/
def role (t : RoleTree α ω) (id : NodeId) : Option (RoleTree α ω × NodeId) := do
  let n ← t.node? id
  if n.kind.isLeaf then splitLeaf t id else return (t, id)

def plant (t : RoleTree α ω) (names : List String) : Option (RoleTree α ω × NodeId) := do
  match ← follow t t.top names with
  | (id, []) => sprout t RolePath.ownLeaf .inactive id
  | (id, name :: names) =>
    let (t, id) ← role t id
    let (t, leaf) ← grow t id (name :: names)
    let t ← modify t leaf fun n => { n with kind := .inactive }
    let t ← relist t leaf
    return (t, leaf)

def add (t : RoleTree α ω) (client : String) : Option (Except ClientFault (RoleTree α ω)) :=
  match RolePath.split client with
  | .error fault => some (.error (.invalidPath client fault))
  | .ok names =>
    if t.clients.contains client then some (.error (.alreadyPresent client))
    else do
      let (t, leaf) ← plant t names
      return .ok { t with clients := t.clients.insert client leaf }

def foldBack (t : RoleTree α ω) (internal own : NodeId) : Option (RoleTree α ω) := do
  let role ← t.node? internal
  guard (t.client? role.path = some own)
  let n ← t.node? own
  let t ← unlist t own
  let t ← vacate t own
  let t ← modify t internal fun m => { m with kind := n.kind, ledger := n.ledger }
  let t ← relist t internal
  return { t with clients := t.clients.insert role.path internal }

def tidy (t : RoleTree α ω) (id : NodeId) : Option (RoleTree α ω) := do
  let n ← t.node? id
  match n.children with
  | [] =>
    let t ← unlist t id
    vacate t id
  | [child] =>
    let c ← t.node? child
    if c.name = RolePath.ownLeaf then foldBack t id child else return t
  | _ => return t

def tidyUp (t : RoleTree α ω) : Nat → NodeId → Option (RoleTree α ω)
  | 0, id => if id = t.top then some t else none
  | steps + 1, id =>
    if id = t.top then some t
    else do
      let n ← t.node? id
      match n.parent with
      | none => return t
      | some parent =>
        let t ← tidy t id
        tidyUp t steps parent

def remove (t : RoleTree α ω) (client : String) :
    Option (Except ClientFault (RoleTree α ω × Ledger α)) :=
  match t.client? client with
  | none => some (.error (.unknown client))
  | some leaf => do
    let n ← t.node? leaf
    let t := { t with clients := t.clients.erase client }
    let t ← modify t leaf fun n => { n with ledger := {} }
    let t ← tidyUp t t.slots.size leaf
    return .ok (t, n.ledger)

def setActivity (t : RoleTree α ω) (client : String) (active : Bool) :
    Option (Except ClientFault (RoleTree α ω × Bool)) :=
  match t.client? client with
  | none => some (.error (.unknown client))
  | some leaf => do
    let kind := if active then NodeKind.active else .inactive
    let n ← t.node? leaf
    if n.kind = kind then return .ok (t, false)
    else
      let t ← modify t leaf fun n => { n with kind := kind }
      let t ← relist t leaf
      return .ok (t, true)

def forgetWithin : Nat → RoleTree α ω → NodeId → Option (RoleTree α ω)
  | 0, _, _ => none
  | depth + 1, t, id => do
    let n ← t.node? id
    let t ← modify t id fun n => { n with weight := none }
    n.children.foldlM (forgetWithin depth) t

def climb (t : RoleTree α ω) : Nat → List NodeId → NodeId → Option (List NodeId)
  | 0, _, _ => none
  | steps + 1, live, id =>
    if live.contains id then some live
    else do
      let n ← t.node? id
      match n.parent with
      | none => return id :: live
      | some parent => climb t steps (id :: live) parent

def live (t : RoleTree α ω) : Option (List NodeId) :=
  t.clients.values.foldlM (fun live leaf => do
    let n ← t.node? leaf
    if n.kind = .active then climb t t.slots.size live leaf else return live) []

def call [Weight ω] (t : RoleTree α ω) : TreeCall ω → Option (RoleTree α ω)
  | .add client => do
    match ← add t client with
    | .ok t' => return t'
    | .error _ => return t
  | .remove client => do
    match ← remove t client with
    | .ok (t', _) => return t'
    | .error _ => return t
  | .setActivity client active => do
    match ← setActivity t client active with
    | .ok (t', _) => return t'
    | .error _ => return t
  | .keepWeight weights id =>
    modify t id fun n => { n with weight := some (n.weight.getD (configured weights n.path)) }
  | .forgetWeights id => forgetWithin t.slots.size t id

/-! ## Slots and links -/

variable {t : RoleTree α ω} {x p c : NodeId} {names : List String}

theorem modify_eq (hx : t.Live x) (f : Node α ω → Node α ω) :
    modify t x f = some (t.modify x f) := by
  unfold modify
  rw [node?_of_live hx]
  rfl

theorem occupy_eq (h : t.FreeListed) (n : Node α ω) : occupy t n = some (t.occupy n) := by
  unfold occupy
  split
  · rfl
  · rename_i id free hfree
    have hid := ((h.mem_iff id).mp (by simp [hfree])).1
    rw [if_pos hid]

theorem vacate_eq (hx : t.Live x) : vacate t x = some (t.vacate x) := by
  unfold vacate
  rw [if_pos hx.lt_size]

theorem enlist_eq (hp : t.Live p) (hx : t.Live x) : enlist t p x = some (t.enlist p x) := by
  unfold enlist
  rw [node?_of_live hx]
  exact modify_eq hp _

theorem unlist_eq (hx : t.Live x) (hp : ∀ p, (t.node x).parent = some p → t.Live p) :
    unlist t x = some (t.unlist x) := by
  unfold unlist RoleTree.unlist
  rw [node?_of_live hx]
  simp only [Option.bind_eq_bind, Option.bind_some]
  cases hparent : (t.node x).parent with
  | none => rfl
  | some p => exact modify_eq (hp p hparent) _

theorem relist_eq (hx : t.Live x) (hp : ∀ p, (t.node x).parent = some p → t.Live p) :
    relist t x = some (t.relist x) := by
  unfold relist RoleTree.relist
  rw [node?_of_live hx, unlist_eq hx hp]
  simp only [Option.bind_eq_bind, Option.bind_some]
  cases hparent : (t.node x).parent with
  | none => rfl
  | some p => exact enlist_eq (by simpa using hp p hparent) (by simpa using hx)

theorem sprout_eq (h : t.FreeListed) (hp : t.Live p) (name : String) (kind : NodeKind) :
    sprout t name kind p = some (t.sprout name kind p) := by
  unfold sprout RoleTree.sprout
  simp only [node?_of_live hp, occupy_eq h, Option.bind_eq_bind, Option.bind_some]
  rw [enlist_eq ((h.live_occupy _ p).mpr (.inr hp)) ((h.live_occupy _ _).mpr (.inl rfl))]
  rfl

theorem live_sprout (h : t.FreeListed) (name : String) (kind : NodeKind) (p id : NodeId) :
    (t.sprout name kind p).1.Live id ↔ id = (t.sprout name kind p).2 ∨ t.Live id := by
  simp only [RoleTree.sprout, live_enlist, h.live_occupy]

theorem free_sprout (h : t.FreeListed) (name : String) (kind : NodeKind) (p : NodeId) :
    (t.sprout name kind p).1.FreeListed := by
  apply (h.occupy (bareNode name (RolePath.join (t.node p).path name) kind (some p))).congr
  · simp only [RoleTree.sprout, free_enlist]
  · simp only [RoleTree.sprout, size_slots_enlist]
  · simp only [RoleTree.sprout, live_enlist, implies_true]

theorem grow_eq (h : t.FreeListed) (hp : t.Live p) : grow t p names = some (t.grow p names) := by
  induction names generalizing t p with
  | nil => rfl
  | cons name names ih =>
    simp only [grow, sprout_eq h hp, Option.bind_eq_bind, Option.bind_some, RoleTree.grow]
    apply ih
    · exact free_sprout h name .internal p
    · exact (live_sprout h name .internal p _).mpr (.inl rfl)

theorem splitLeaf_eq (h : t.Linked []) (hx : t.Live x) (hroot : x ≠ t.top) :
    splitLeaf t x = some (t.splitLeaf x) := by
  obtain ⟨p, hparent, hmem⟩ := h.up hx hroot List.not_mem_nil
  have hp := live_of_mem_children hmem
  have hfree := (h.unlist hx hroot List.not_mem_nil).free
  have hlive := live_sprout hfree (t.node x).name .internal p
  have hnew := (hlive _).mpr (.inl rfl)
  have hold := (hlive x).mpr (.inr (by simpa using hx))
  have hunlist : unlist t x = some (t.unlist x) := by
    apply unlist_eq hx
    intro q hq
    exact h.parent_live hx hq
  unfold splitLeaf RoleTree.splitLeaf
  simp only [node?_of_live hx, hparent, hunlist, sprout_eq hfree (by simpa using hp),
    node?_of_live hnew, modify_eq hold, Option.bind_eq_bind, Option.bind_some]
  rw [enlist_eq (by simpa using hnew) (by simpa using hold)]
  rfl

/-! ## The way along nodes -/

theorem firstNamed_eq {ids : List NodeId} (hids : ∀ c ∈ ids, t.Live c) (name : String) :
    firstNamed t name ids = some (ids.find? fun c => (t.node c).name = name) := by
  induction ids with
  | nil => rfl
  | cons c ids ih =>
    obtain ⟨hc, hids⟩ := List.forall_mem_cons.mp hids
    simp only [firstNamed, node?_of_live hc, Option.bind_eq_bind, Option.bind_some, List.find?_cons,
      ih hids]
    by_cases hname : (t.node c).name = name
    · simp [hname]
    · simp [hname]

theorem child?_eq (h : t.Linked []) (hx : t.Live x) (name : String) :
    child? t x name = some (t.child? x name) := by
  unfold child?
  rw [node?_of_live hx]
  exact firstNamed_eq (fun c hc => (h.down hc).1) name

theorem find?_eq (h : t.Linked []) (hx : t.Live x) :
    find? t x names = some (names.foldlM t.child? x) := by
  induction names generalizing x with
  | nil => rfl
  | cons name names ih =>
    simp only [find?, child?_eq h hx, Option.bind_eq_bind, Option.bind_some, List.foldlM_cons]
    cases hchild : t.child? x name with
    | none => rfl
    | some c => exact ih (h.down (h.child?_eq_some_iff.mp hchild).1).1

theorem follow_eq (h : t.Linked []) (hx : t.Live x) :
    follow t x names = some (t.follow x names) := by
  induction names generalizing x with
  | nil => rfl
  | cons name names ih =>
    simp only [follow, child?_eq h hx, Option.bind_eq_bind, Option.bind_some, RoleTree.follow]
    cases hchild : t.child? x name with
    | none => rfl
    | some c => exact ih (h.down (h.child?_eq_some_iff.mp hchild).1).1

theorem role_eq (h : t.Linked []) (hx : t.Live x) :
    role t x = some (if (t.node x).kind.isLeaf then t.splitLeaf x else (t, x)) := by
  unfold role
  simp only [node?_of_live hx, Option.bind_eq_bind, Option.bind_some]
  split
  · rename_i hleaf
    exact splitLeaf_eq h hx (h.ne_root_of_leaf hleaf)
  · rfl

theorem turn_eq (h : t.Linked []) (hx : t.Live x) {f : Node α ω → Node α ω}
    (hf : ∀ n, (f n).parent = n.parent) :
    modify t x f = some (t.modify x f) ∧
      relist (t.modify x f) x = some ((t.modify x f).relist x) := by
  constructor
  · exact modify_eq hx f
  · apply relist_eq
    · simpa using hx
    · intro p hp
      rw [apply_node_modify t x f Node.parent hf x] at hp
      simpa using h.parent_live hx hp

/-! ## Clients -/

variable {client : String}

theorem plant_eq (h : t.Sound) (hsplit : RolePath.split client = .ok names) :
    plant t names = some (t.plant names) := by
  obtain ⟨-, -, hnames⟩ := RolePath.of_split_eq_ok hsplit
  have f := h.linked.follow h.linked.root_live fun name hname => (hnames name hname).2
  unfold plant RoleTree.plant
  rw [follow_eq h.linked h.linked.root_live]
  generalize t.follow t.top names = followed at f ⊢
  obtain ⟨last, rest⟩ := followed
  obtain ⟨taken, hnamesEq, -⟩ := f.taken
  dsimp only at f hnamesEq
  simp only [Option.bind_eq_bind, Option.bind_some]
  cases rest with
  | nil => exact sprout_eq h.linked.free f.live RolePath.ownLeaf .inactive
  | cons name rest =>
    subst hnamesEq
    obtain ⟨t', tip, hgrown, g, hnew⟩ := h.grown f.live f.moved (hnames name (by simp)).2
      (f.stopped name rfl)
    have shoot := g.grow (List.cons_ne_nil name rest)
      (fun other hother => hnames other (List.mem_append_right taken hother)) (by simpa using hnew)
    obtain ⟨hmodify, hrelist⟩ := turn_eq shoot.linked shoot.live
      (f := fun n => { n with kind := .inactive }) fun _ => rfl
    simp only [role_eq h.linked f.live, hgrown, grow_eq g.linked.free g.live, hmodify, hrelist,
      Option.bind_some]
    rfl

theorem add_eq (h : t.Sound) (client : String) : add t client = some (t.add client) := by
  unfold add RoleTree.add
  cases hsplit : RolePath.split client with
  | error fault => rfl
  | ok names =>
    dsimp only
    split
    · rfl
    · rw [plant_eq h hsplit]
      rfl

theorem foldBack_eq (h : t.Linked []) (hx : t.Live x) {own : NodeId}
    (hchildren : (t.node x).children = [own]) (hown : (t.node own).name = RolePath.ownLeaf)
    (hclient : t.client? (t.node x).path = some own) :
    foldBack t x own = some (t.foldBack x own) := by
  have hmem : own ∈ (t.node x).children := by simp [hchildren]
  obtain ⟨howned, -, hownparent, -⟩ := h.down hmem
  have hxown : x ≠ own := Ne.symm (h.child_ne_parent hmem)
  obtain ⟨h₁, d⟩ := h.drop howned (h.child_ne_root hmem) (h.leaf (h.own howned hown).1)
  have hunlist : unlist t own = some (t.unlist own) := by
    apply unlist_eq howned
    intro p hp
    exact h.parent_live howned hp
  obtain ⟨hmodify, hrelist⟩ := turn_eq h₁ ((d.live x).mpr ⟨hxown, hx⟩)
    (f := fun m => { m with kind := (t.node own).kind, ledger := (t.node own).ledger }) fun _ => rfl
  unfold foldBack RoleTree.foldBack
  simp only [node?_of_live hx, node?_of_live howned, hclient, hunlist,
    vacate_eq ((live_unlist t own own).mpr howned), hmodify, hrelist, guard, if_true,
    Option.bind_eq_bind, Option.bind_some]
  rfl

theorem tidy_eq (h : t.Linked []) (hx : t.Live x)
    (hclient : ∀ own, (t.node x).children = [own] → (t.node own).name = RolePath.ownLeaf →
      t.client? (t.node x).path = some own) : tidy t x = some (t.tidy x) := by
  unfold tidy RoleTree.tidy
  simp only [node?_of_live hx, Option.bind_eq_bind, Option.bind_some]
  cases hchildren : (t.node x).children with
  | nil =>
    dsimp only
    rw [unlist_eq hx fun p hp => h.parent_live hx hp]
    exact vacate_eq ((live_unlist t x x).mpr hx)
  | cons own rest =>
    cases rest with
    | cons other rest => rfl
    | nil =>
      have hmem : own ∈ (t.node x).children := by simp [hchildren]
      simp only [node?_of_live (h.down hmem).1, Option.bind_some]
      split
      · rename_i hown
        exact foldBack_eq h hx hchildren hown (hclient own hchildren hown)
      · rfl

theorem client?_of_own (h : t.Linked []) (hr : t.Registered []) {own : NodeId}
    (hmem : own ∈ (t.node x).children) (hown : (t.node own).name = RolePath.ownLeaf) :
    t.client? (t.node x).path = some own := by
  obtain ⟨hlive, -, hparent, -⟩ := h.down hmem
  exact (hr _ own).mpr ⟨hlive, List.not_mem_nil, (h.own hlive hown).1,
    clientOf_of_parent hparent hown⟩

theorem tidyUp_eq (h : t.Linked []) (hb : t.Branching [x]) (hr : t.Registered []) (hx : t.Live x)
    (hkind : (t.node x).kind = .internal) (steps : Nat)
    (hsteps : RolePath.depth (t.node x).path ≤ steps) :
    tidyUp t steps x = some (t.tidyUp steps x) := by
  induction steps generalizing t x with
  | zero =>
    obtain rfl := h.eq_root_of_depth hx (Nat.le_zero.mp hsteps)
    exact if_pos rfl
  | succ steps ih =>
    simp only [tidyUp, RoleTree.tidyUp]
    split
    · rfl
    · rename_i hroot
      obtain ⟨p, s⟩ := h.tidy_role hb hr hx hroot hkind
      have htidy : tidy t x = some (t.tidy x) := by
        apply tidy_eq h hx
        intro own hchildren hown
        exact client?_of_own h hr (by simp [hchildren]) hown
      simp only [node?_of_live hx, s.parent, htidy, Option.bind_eq_bind, Option.bind_some]
      exact ih s.linked s.branching s.registered s.live s.internal (s.depth_le h hx hsteps)

theorem tidyUp_eq_of_loose (l : Loose t x) :
    tidyUp t t.slots.size x = some (t.tidyUp t.slots.size x) := by
  obtain ⟨p, steps, s, hsize, hfirst, hsteps⟩ := l.exists_step
  have htidy : tidy t x = some (t.tidy x) := by
    apply tidy_eq l.linked l.live
    intro own hchildren
    rw [l.childless] at hchildren
    exact absurd hchildren (by simp)
  rw [hfirst, hsize]
  simp only [tidyUp, if_neg l.ne_root, node?_of_live l.live, s.parent, htidy,
    Option.bind_eq_bind, Option.bind_some]
  exact tidyUp_eq s.linked s.branching s.registered s.live s.internal steps hsteps

theorem remove_eq (h : t.Sound) (client : String) : remove t client = some (t.remove client) := by
  unfold remove RoleTree.remove
  cases hclient : t.client? client with
  | none => rfl
  | some leaf =>
    have l := h.strikeOut hclient
    have hlive := ((h.registered client leaf).mp hclient).1
    have herased : RoleTree.Live { t with clients := t.clients.erase client } leaf := hlive
    have hmodify : modify { t with clients := t.clients.erase client } leaf
        (fun n => { n with ledger := {} }) = some (t.strikeOut client leaf) :=
      modify_eq herased _
    simp only [node?_of_live hlive, hmodify, tidyUp_eq_of_loose l, Option.bind_eq_bind,
      Option.bind_some]
    rfl

theorem setActivity_eq (h : t.Sound) (client : String) (active : Bool) :
    setActivity t client active = some (t.setActivity client active) := by
  unfold setActivity RoleTree.setActivity
  cases hclient : t.client? client with
  | none => rfl
  | some leaf =>
    have hlive := ((h.registered client leaf).mp hclient).1
    dsimp only
    generalize (if active then NodeKind.active else .inactive) = kind
    obtain ⟨hmodify, hrelist⟩ := turn_eq h.linked hlive
      (f := fun n => { n with kind := kind }) fun _ => rfl
    simp only [node?_of_live hlive, Option.bind_eq_bind, Option.bind_some]
    split
    · rfl
    · simp only [hmodify, hrelist, Option.bind_some]
      rfl

/-! ## Weights -/

theorem forgetWithin_eq (h : t.Linked []) {u : RoleTree α ω} (s : SameLinks t u) (hx : t.Live x)
    (depth : Nat) (hdepth : t.slots.size ≤ depth + RolePath.depth (t.node x).path) :
    forgetWithin depth u x = some (u.forgetWithin depth x) := by
  induction depth generalizing u x with
  | zero =>
    have hlt := h.depth_lt_size hx
    omega
  | succ depth ih =>
    have hfold (ids : List NodeId) (hids : ∀ c ∈ ids, c ∈ (t.node x).children) (v : RoleTree α ω)
        (hv : SameLinks t v) : ids.foldlM (forgetWithin depth) v =
          some (ids.foldl (fun v c => v.forgetWithin depth c) v) := by
      induction ids generalizing v with
      | nil => rfl
      | cons c ids ihids =>
        obtain ⟨hc, hids⟩ := List.forall_mem_cons.mp hids
        have hchild := h.depth_child hc
        have hforget := ih hv (h.down hc).1 (by omega)
        have hsame : SameLinks t (v.forgetWithin depth c) :=
          forgetWithin_induction (fun w id hw =>
            hw.trans (SameLinks.modify w id fun n => ⟨none, n.ledger, rfl⟩)) depth c hv
        rw [List.foldlM_cons, hforget]
        exact ihids hids _ hsame
    have hlive : u.Live x := (s.live x).mpr hx
    have hmodify : SameLinks t (u.modify x fun n => { n with weight := none }) :=
      s.trans (SameLinks.modify u x fun n => ⟨none, n.ledger, rfl⟩)
    simp only [forgetWithin, RoleTree.forgetWithin, node?_of_live hlive, modify_eq hlive,
      Option.bind_eq_bind, Option.bind_some]
    apply hfold
    · intro c hc
      rwa [s.children] at hc
    · exact hmodify

theorem climb_eq (h : t.Linked []) (hx : t.Live x) (steps : Nat)
    (hsteps : RolePath.depth (t.node x).path < steps) (live : List NodeId) :
    climb t steps live x = some (t.climb steps live x) := by
  induction steps generalizing x live with
  | zero => omega
  | succ steps ih =>
    simp only [climb, RoleTree.climb, node?_of_live hx, Option.bind_eq_bind, Option.bind_some]
    split
    · rfl
    · cases hparent : (t.node x).parent with
      | none => rfl
      | some p =>
        have hmem := h.mem_children_of_parent hx hparent
        have hchild := h.depth_child hmem
        exact ih (live_of_mem_children hmem) (by omega) (x :: live)

theorem live_eq (h : t.Sound) : live t = some t.live := by
  have hfold (ids : List NodeId) (hids : ∀ c ∈ ids, t.Live c) (acc : List NodeId) :
      ids.foldlM (fun live leaf => do
        let n ← t.node? leaf
        if n.kind = .active then climb t t.slots.size live leaf else return live) acc =
      some ((ids.filter fun leaf => (t.node leaf).kind = .active).foldl
        (t.climb t.slots.size) acc) := by
    induction ids generalizing acc with
    | nil => rfl
    | cons c ids ih =>
      obtain ⟨hc, hids⟩ := List.forall_mem_cons.mp hids
      have hclimb := climb_eq h.linked hc t.slots.size (h.linked.depth_lt_size hc) acc
      rw [List.foldlM_cons, List.filter_cons]
      simp only [node?_of_live hc, Option.bind_eq_bind, Option.bind_some, decide_eq_true_eq]
      by_cases hkind : (t.node c).kind = .active
      · rw [if_pos hkind, if_pos hkind, hclimb, List.foldl_cons]
        exact ih hids _
      · rw [if_neg hkind, if_neg hkind]
        exact ih hids acc
  apply hfold
  intro leaf hleaf
  obtain ⟨client, hclient⟩ := Table.mem_values.mp hleaf
  exact ((h.registered client leaf).mp hclient).1

/-! ## Calls -/

theorem call_eq [Weight ω] (h : t.Sound) (c : TreeCall ω) (hc : ∀ id ∈ c.slot?, t.Live id) :
    call t c = some (t.call c) := by
  cases c with
  | add client =>
    simp only [call, add_eq h, RoleTree.call, Option.bind_eq_bind, Option.bind_some]
    cases t.add client with
    | error fault => rfl
    | ok t' => rfl
  | remove client =>
    simp only [call, remove_eq h, RoleTree.call, Option.bind_eq_bind, Option.bind_some]
    cases t.remove client with
    | error fault => rfl
    | ok t' => rfl
  | setActivity client active =>
    simp only [call, setActivity_eq h, RoleTree.call, Option.bind_eq_bind, Option.bind_some]
    cases t.setActivity client active with
    | error fault => rfl
    | ok t' => rfl
  | keepWeight weights id => exact modify_eq (hc id rfl) _
  | forgetWeights id =>
    exact forgetWithin_eq h.linked (SameLinks.refl t) (hc id rfl) t.slots.size (by omega)

end Checked

end RoleLottery.RoleTree
