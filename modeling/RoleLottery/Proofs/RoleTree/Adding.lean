import RoleLottery.Proofs.RoleTree.Accounts

/-!
# Adding clients

The way to the new leaf leads along nodes that are there, and then along new ones. A tree stays
sound when a client is added, and all other accounts stay as they are.
-/

namespace RoleLottery.RoleTree

variable {α ω : Type} {t t' t₀ : RoleTree α ω} {out : List NodeId} {p c tip : NodeId}
  {name path client : String} {names : List String}

/-! ## The way along nodes -/

theorem Linked.child?_eq_some_iff (h : t.Linked out) :
    t.child? p name = some c ↔ c ∈ (t.node p).children ∧ (t.node c).name = name := by
  unfold child?
  constructor
  · intro hc
    exact ⟨List.mem_of_find?_eq_some hc, by simpa using List.find?_some hc⟩
  · rintro ⟨hmem, hname⟩
    cases hfind : (t.node p).children.find? fun child => (t.node child).name = name with
    | none =>
      have hnone := List.find?_eq_none.mp hfind c hmem
      simp [hname] at hnone
    | some d =>
      have hd := List.mem_of_find?_eq_some hfind
      have hdname : (t.node d).name = name := by simpa using List.find?_some hfind
      rw [h.eq_of_name_eq hmem hd (hname.trans hdname.symm)]

theorem child?_eq_none_iff :
    t.child? p name = none ↔ ∀ c ∈ (t.node p).children, (t.node c).name ≠ name := by
  simp [child?]

/-- Where the way from `p` along `names` ends: at the last node on it, with `rest` left over. -/
structure Followed (t : RoleTree α ω) (p : NodeId) (names : List String) (last : NodeId)
    (rest : List String) : Prop where
  live : t.Live last
  /-- The names on the way are taken off, and joined to the path. -/
  taken : ∃ taken, names = taken ++ rest ∧
    (t.node last).path = RolePath.joinAll (t.node p).path taken
  moved : last = p ∨ last ≠ t.top ∧ (t.node last).name ≠ RolePath.ownLeaf
  stopped : ∀ name ∈ rest.head?, ∀ c ∈ (t.node last).children, (t.node c).name ≠ name

theorem Linked.follow (h : t.Linked []) (hp : t.Live p)
    (hnames : ∀ name ∈ names, name ≠ RolePath.ownLeaf) :
    Followed t p names (t.follow p names).1 (t.follow p names).2 := by
  induction names generalizing p with
  | nil => exact ⟨hp, ⟨[], rfl, rfl⟩, .inl rfl, by simp [RoleTree.follow]⟩
  | cons name names ih =>
    obtain ⟨hname, hnames⟩ := List.forall_mem_cons.mp hnames
    simp only [RoleTree.follow]
    cases hchild : t.child? p name with
    | none =>
      refine ⟨hp, ⟨[], rfl, rfl⟩, .inl rfl, fun other hother => ?_⟩
      rw [List.head?_cons, Option.mem_some_iff] at hother
      subst hother
      exact child?_eq_none_iff.mp hchild
    | some c =>
      obtain ⟨hmem, hcname⟩ := h.child?_eq_some_iff.mp hchild
      obtain ⟨hc, -, -, hpath⟩ := h.down hmem
      obtain ⟨hlive, ⟨taken, hsplit, hlast⟩, hmoved, hstopped⟩ := ih hc hnames
      refine ⟨hlive, ⟨name :: taken, congrArg (name :: ·) hsplit, ?_⟩, .inr ?_, hstopped⟩
      · rw [hlast, hpath, hcname]
        rfl
      · rcases hmoved with he | hmoved
        · dsimp only
          rw [he]
          exact ⟨h.child_ne_root hmem, by rwa [hcname]⟩
        · exact hmoved

/-! ## New nodes on the way -/

/-- The tree `t` has grown from `t₀`, as far as the role `tip`, which may lack clients. -/
structure Grown (t₀ t : RoleTree α ω) (tip : NodeId) (path : String) : Prop where
  linked : t.Linked []
  branching : t.Branching [tip]
  registered : t.Registered []
  keeps : Keeps t₀ t
  live : t.Live tip
  internal : (t.node tip).kind = .internal
  path_eq : (t.node tip).path = path

structure Shoot (t₀ t : RoleTree α ω) (tip : NodeId) (path : String) : Prop extends
    Grown t₀ t tip path where
  fresh : ¬ t₀.Live tip
  ne_root : tip ≠ t.top
  children : (t.node tip).children = []
  name_ne : (t.node tip).name ≠ RolePath.ownLeaf
  ledger : (t.node tip).ledger = {}

theorem Grown.sprout (g : Grown t₀ t tip path) (hname : RolePath.IsName name)
    (hown : name ≠ RolePath.ownLeaf) (hnew : ∀ c ∈ (t.node tip).children, (t.node c).name ≠ name) :
    Shoot t₀ (t.sprout name .internal tip).1 (t.sprout name .internal tip).2
      (RolePath.join path name) := by
  obtain ⟨h, s⟩ := g.linked.sprout name .internal g.live g.internal hname
    (fun he => absurd he hown) hnew
  constructor
  · constructor
    case linked => exact h
    case branching =>
      refine s.branching g.linked g.branching (fun id hid => .inr ⟨?_, hown⟩) (by simp)
      simpa using hid
    case registered =>
      intro client id
      rw [s.registered g.linked g.registered client id]
      by_cases hid : id = (t.sprout name .internal tip).2
      · simp [hid, s.new, bareNode, NodeKind.isLeaf]
      · simp [hid]
    case keeps => exact g.keeps.trans s.keeps
    case live => exact (s.live _).mpr (.inl rfl)
    case internal =>
      rw [s.new]
      rfl
    case path_eq =>
      rw [s.new, ← g.path_eq]
      rfl
  · exact fun hlive => s.fresh (g.keeps.live hlive)
  · rw [s.top]
    exact fun he => s.fresh (he ▸ g.linked.root_live)
  · rw [s.new]
    rfl
  · rw [s.new]
    exact hown
  · rw [s.new]
    rfl

theorem Shoot.grow (g : Shoot t₀ t tip path)
    (hnames : ∀ name ∈ names, RolePath.IsName name ∧ name ≠ RolePath.ownLeaf) :
    Shoot t₀ (t.grow tip names).1 (t.grow tip names).2 (RolePath.joinAll path names) := by
  induction names generalizing t tip path with
  | nil => exact g
  | cons name names ih =>
    obtain ⟨⟨hname, hown⟩, hnames⟩ := List.forall_mem_cons.mp hnames
    have hsprout := g.toGrown.sprout hname hown (by simp [g.children])
    exact ih hsprout hnames

theorem Grown.grow (g : Grown t₀ t tip path) (hne : names ≠ [])
    (hnames : ∀ name ∈ names, RolePath.IsName name ∧ name ≠ RolePath.ownLeaf)
    (hnew : ∀ name ∈ names.head?, ∀ c ∈ (t.node tip).children, (t.node c).name ≠ name) :
    Shoot t₀ (t.grow tip names).1 (t.grow tip names).2 (RolePath.joinAll path names) := by
  cases names with
  | nil => exact absurd rfl hne
  | cons name names =>
    obtain ⟨⟨hname, hown⟩, hnames⟩ := List.forall_mem_cons.mp hnames
    exact (g.sprout hname hown (hnew name rfl)).grow hnames

/-! ## The new leaf -/

/-- The tree `t` has a new inactive leaf for `client`, which is not in the table of clients yet. -/
structure Planted (t₀ t : RoleTree α ω) (leaf : NodeId) (client : String) : Prop where
  linked : t.Linked []
  branching : t.Branching []
  registered : t.Registered [leaf]
  keeps : Keeps t₀ t
  live : t.Live leaf
  kind : (t.node leaf).kind = .inactive
  ledger : (t.node leaf).ledger = {}
  clientOf_eq : t.clientOf leaf = client

theorem Shoot.finish (g : Shoot t₀ t tip client) :
    Planted t₀ ((t.modify tip fun n => { n with kind := .inactive }).relist tip) tip client := by
  obtain ⟨h, s⟩ := g.linked.turn g.live g.ne_root g.children .inactive (t.node tip).ledger
    (fun _ => rfl) (f := fun n => { n with kind := .inactive }) rfl
  constructor
  case linked => exact h
  case branching => exact s.branching rfl g.branching (by simp)
  case registered => exact s.registered_new g.registered g.internal
  case keeps =>
    have hne {id : NodeId} (hid : t₀.Live id) : id ≠ tip := fun he => g.fresh (he ▸ hid)
    exact ⟨s.top.trans g.keeps.top, s.clients.trans g.keeps.clients,
      fun hid => (s.live _).mpr (g.keeps.live hid),
      fun hid => (s.kind_ne (hne hid)).trans (g.keeps.kind hid),
      fun hid => (s.ledger_ne (hne hid)).trans (g.keeps.ledger hid)⟩
  case live => exact (s.live tip).mpr g.live
  case kind => rw [s.self]
  case ledger =>
    rw [s.self]
    exact g.ledger
  case clientOf_eq =>
    rw [s.clientOf, clientOf_of_name_ne g.name_ne]
    exact g.path_eq

theorem Sound.sproutOwn (h : t.Sound) (hp : t.Live p) (hroot : p ≠ t.top)
    (hkind : (t.node p).kind = .internal)
    (hnew : ∀ c ∈ (t.node p).children, (t.node c).name ≠ RolePath.ownLeaf) :
    Planted t (t.sprout RolePath.ownLeaf .inactive p).1 (t.sprout RolePath.ownLeaf .inactive p).2
      (t.node p).path := by
  obtain ⟨hl, s⟩ := h.linked.sprout RolePath.ownLeaf .inactive hp hkind RolePath.isName_ownLeaf
    (fun _ => ⟨rfl, hroot⟩) hnew
  constructor
  case linked => exact hl
  case branching => exact s.branching h.linked h.branching (by simp) (by simp [bareNode])
  case registered => exact s.registered h.linked h.registered
  case keeps => exact s.keeps
  case live => exact (s.live _).mpr (.inl rfl)
  case kind =>
    rw [s.new]
    rfl
  case ledger =>
    rw [s.new]
    rfl
  case clientOf_eq =>
    rw [clientOf_of_parent (p := p) (by rw [s.new]; rfl) (by rw [s.new]; rfl),
      s.old (s.ne_of_live hp)]

theorem Sound.grown (h : t.Sound) (hp : t.Live p)
    (hmoved : p = t.top ∨ p ≠ t.top ∧ (t.node p).name ≠ RolePath.ownLeaf)
    (hname : name ≠ RolePath.ownLeaf) (hnew : ∀ c ∈ (t.node p).children, (t.node c).name ≠ name) :
    ∃ t' tip, (if (t.node p).kind.isLeaf then t.splitLeaf p else (t, p)) = (t', tip) ∧
      Grown t t' tip (t.node p).path ∧ ∀ c ∈ (t'.node tip).children, (t'.node c).name ≠ name := by
  split
  · rename_i hleaf
    have hroot : p ≠ t.top := h.linked.ne_root_of_leaf hleaf
    have hown := (hmoved.resolve_left hroot).2
    obtain ⟨hl, s⟩ := h.linked.splitLeaf hp hroot hleaf hown
    refine ⟨(t.splitLeaf p).1, (t.splitLeaf p).2, rfl, ?_, ?_⟩
    · constructor
      case linked => exact hl
      case branching => exact s.branching h.linked hleaf h.branching
      case registered => exact s.registered h.linked hleaf hown h.registered
      case keeps => exact s.keeps
      case live => exact (s.live _).mpr (.inl rfl)
      case internal =>
        rw [s.new]
        rfl
      case path_eq =>
        rw [s.new]
        rfl
    · intro c hc
      rw [s.new, List.mem_singleton] at hc
      rw [hc, s.moved]
      exact Ne.symm hname
  · rename_i hinternal
    have hkind : (t.node p).kind = .internal := by simpa [isLeaf_iff] using hinternal
    exact ⟨t, p, rfl, ⟨h.linked, h.branching.mono (by simp), h.registered, Keeps.refl t, hp, hkind,
      rfl⟩, hnew⟩

/-- The path of a client without a leaf is no leaf, and has no leaf of its own. -/
theorem Sound.vacancy (h : t.Sound) (hp : t.Live p)
    (hmoved : p = t.top ∨ p ≠ t.top ∧ (t.node p).name ≠ RolePath.ownLeaf)
    (hclient : t.client? (t.node p).path = none) :
    (t.node p).kind = .internal ∧
      ∀ c ∈ (t.node p).children, (t.node c).name ≠ RolePath.ownLeaf := by
  have hnone (id : NodeId) (hid : t.Live id) (hleaf : (t.node id).kind.isLeaf) :
      t.clientOf id ≠ (t.node p).path := by
    intro he
    have hsome := (h.registered _ id).mpr ⟨hid, List.not_mem_nil, hleaf, he⟩
    rw [hclient] at hsome
    exact absurd hsome (by simp)
  constructor
  · by_contra hkind
    rcases hmoved with rfl | ⟨-, hname⟩
    · exact hkind h.linked.root_kind
    · exact hnone p hp (isLeaf_iff.mpr hkind) (clientOf_of_name_ne hname)
  · intro c hc hname
    obtain ⟨hlive, -, hparent, -⟩ := h.linked.down hc
    exact hnone c hlive (h.linked.own hlive hname).1 (clientOf_of_parent hparent hname)

theorem Sound.plant (h : t.Sound) (hsplit : RolePath.split client = .ok names)
    (hclient : t.client? client = none) :
    Planted t (t.plant names).1 (t.plant names).2 client := by
  obtain ⟨hempty, -, hnames⟩ := RolePath.of_split_eq_ok hsplit
  have hpath := RolePath.joinAll_of_split_eq_ok hsplit
  have f := h.linked.follow h.linked.root_live fun name hname => (hnames name hname).2
  unfold RoleTree.plant
  generalize t.follow t.top names = followed at f ⊢
  obtain ⟨last, rest⟩ := followed
  obtain ⟨taken, rfl, hlast⟩ := f.taken
  dsimp only at hlast f ⊢
  rw [h.linked.root_path] at hlast
  cases rest with
  | nil =>
    rw [List.append_nil] at hpath
    rw [hpath] at hlast
    have hroot : last ≠ t.top := by
      intro he
      subst he
      rw [h.linked.root_path] at hlast
      exact hempty hlast.symm
    subst hlast
    obtain ⟨hkind, hown⟩ := h.vacancy f.live f.moved hclient
    exact h.sproutOwn f.live hroot hkind hown
  | cons name rest =>
    obtain ⟨t', tip, hgrown, g, hnew⟩ := h.grown f.live f.moved (hnames name (by simp)).2
      (f.stopped name rfl)
    have shoot := g.grow (List.cons_ne_nil name rest)
      (fun other hother => hnames other (List.mem_append_right taken hother)) (by simpa using hnew)
    simp only [hgrown]
    have hjoin : RolePath.joinAll (t.node last).path (name :: rest) = client := by
      rw [hlast, ← hpath]
      exact (List.foldl_append).symm
    rw [hjoin] at shoot
    exact shoot.finish

/-! ## Adding clients -/

theorem Planted.sound {leaf : NodeId} (g : Planted t₀ t leaf client)
    (hclient : t₀.client? client = none) :
    { t with clients := t.clients.insert client leaf }.Sound := by
  refine ⟨g.linked.setClients _, g.branching, fun other id => ?_⟩
  have hold : t.client? client = none := by
    rw [client?_congr g.keeps.clients, hclient]
  have hother := g.registered other id
  rw [client?, Table.get?_insert]
  change _ ↔ t.Live id ∧ id ∉ [] ∧ (t.node id).kind.isLeaf ∧ t.clientOf id = other
  split
  · rename_i he
    subst he
    rw [hold] at hother
    by_cases hid : id = leaf
    · subst hid
      simp [g.live, g.kind, g.clientOf_eq, NodeKind.isLeaf]
    · have hnot : ¬ (t.Live id ∧ (t.node id).kind.isLeaf ∧ t.clientOf id = client) := by
        simpa [hid] using hother
      refine iff_of_false (by simpa using Ne.symm hid) ?_
      simpa using hnot
  · rename_i he
    change t.client? other = some id ↔ _
    rw [hother]
    by_cases hid : id = leaf
    · subst hid
      simp [g.clientOf_eq, he]
    · simp [hid]

theorem Planted.account? {leaf : NodeId} (g : Planted t₀ t leaf client)
    (hr : t₀.Registered []) (other : String) :
    { t with clients := t.clients.insert client leaf }.account? other =
      if client = other then some ⟨false, {}⟩ else t₀.account? other := by
  rw [RoleTree.account?, client?, Table.get?_insert]
  split
  · have haccount : t.accountAt leaf = ⟨false, {}⟩ := by
      simp [accountAt, g.kind, g.ledger]
    exact congrArg some haccount
  · exact g.keeps.account? hr other

theorem add_eq_error_of_invalid (t : RoleTree α ω) {fault : RolePath.Fault}
    (hsplit : RolePath.split client = .error fault) :
    t.add client = .error (.invalidPath client fault) := by
  simp [add, hsplit]

theorem add_eq_error_of_present {a : Account α} (hsplit : RolePath.split client = .ok names)
    (hclient : t.account? client = some a) : t.add client = .error (.alreadyPresent client) := by
  obtain ⟨leaf, hleaf, -⟩ := account?_eq_some_iff.mp hclient
  have hcontains : t.clients.contains client = true := Table.contains_of_get?_eq_some hleaf
  simp [add, hsplit, hcontains]

theorem Sound.add_eq_ok (h : t.Sound) (hsplit : RolePath.split client = .ok names)
    (hclient : t.account? client = none) :
    ∃ t', t.add client = .ok t' ∧ t'.Sound ∧ ∀ other,
      t'.account? other = if client = other then some ⟨false, {}⟩ else t.account? other := by
  have hnone := account?_eq_none_iff.mp hclient
  have g := h.plant hsplit hnone
  have hcontains : t.clients.contains client = false := Table.contains_of_get?_eq_none hnone
  refine ⟨_, ?_, g.sound hnone, g.account? h.registered⟩
  unfold RoleTree.add
  rw [hsplit]
  simp [hcontains]

end RoleLottery.RoleTree
