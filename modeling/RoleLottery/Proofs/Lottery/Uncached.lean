import RoleLottery.Proofs.Lottery.Accounts
import RoleLottery.Proofs.RoleTree.KeptWeights

/-!
# A lottery that keeps nothing for later

The nodes of this lottery have no room for a weight, and it has no shares but those that it computes
for a draw. It is the measure for one that keeps both: the two give the same replies in every run.
-/

namespace RoleLottery

/-- The shares by the weights that are set, whatever the nodes keep. -/
def RoleTree.plainShares {α ω υ : Type} [Weight ω] (t : RoleTree α υ) (weights : Table ω) :
    List (String × ω) :=
  t.sharesBy fun id => configured weights (t.node id).path

structure Uncached (α ω γ : Type) where
  tree : RoleTree α Empty
  weights : Table ω
  generator : γ
  total : Quantities α

namespace Uncached

variable {α ω γ : Type} [Amount α] [Weight ω]

def start (g : γ) : Uncached α ω γ := ⟨{}, {}, g, {}⟩

def setActivity (u : Uncached α ω γ) (client : String) (active : Bool) :
    Except (LotteryError α ω) (Uncached α ω γ) :=
  match u.tree.setActivity client active with
  | .error fault => .error (.client fault)
  | .ok (tree, _) => .ok { u with tree := tree }

def withLeaf {β : Type} (u : Uncached α ω γ) (client : String)
    (f : NodeId → Ledger α → Except (LotteryError α ω) β) : Except (LotteryError α ω) β :=
  match u.tree.client? client with
  | none => .error (.client (.unknown client))
  | some leaf => f leaf (u.tree.node leaf).ledger

def withLedger (u : Uncached α ω γ) (leaf : NodeId) (ledger : Ledger α) (total : Quantities α) :
    Uncached α ω γ :=
  { u with tree := u.tree.modify leaf fun n => { n with ledger := ledger }, total := total }

/-- What a call does. A draw computes all shares from the tree and the weights that are set. -/
def attempt [RaceTime ω] [WordSource γ] (u : Uncached α ω γ) :
    Call α ω → Except (LotteryError α ω) (List String × Uncached α ω γ)
  | .add client =>
    match u.tree.add client with
    | .error fault => .error (.client fault)
    | .ok tree => .ok ([], { u with tree := tree })
  | .remove client =>
    match u.tree.remove client with
    | .error fault => .error (.client fault)
    | .ok (tree, ledger) => .ok ([], { u with tree := tree, total := u.total - ledger.totals })
  | .activate client => Lottery.silent (u.setActivity client true)
  | .deactivate client => Lottery.silent (u.setActivity client false)
  | .setWeight path weight =>
    match RolePath.split path with
    | .error fault => .error (.client (.invalidPath path fault))
    | .ok _ =>
      if !Weight.isFinite weight || Weight.lt weight Weight.zero then
        .error (.invalidWeight path weight)
      else .ok ([], { u with weights := u.weights.insert path weight })
  | .allocate client agent bundle => u.withLeaf client fun leaf ledger =>
      let (ledger, added) := ledger.add agent bundle
      .ok ([], u.withLedger leaf ledger (u.total + added))
  | .release client agent bundle => u.withLeaf client fun leaf ledger =>
      match ledger.checkRelease agent bundle with
      | .error fault => .error (.ledger client agent fault)
      | .ok () =>
        let (ledger, removed) := ledger.release agent bundle
        .ok ([], u.withLedger leaf ledger (u.total - removed))
  | .replace client agent old new => u.withLeaf client fun leaf ledger =>
      match ledger.checkReplace agent old with
      | .error fault => .error (.ledger client agent fault)
      | .ok () =>
        let (ledger, removed, added) := ledger.replace agent old new
        .ok ([], u.withLedger leaf ledger (u.total - removed + added))
  | .addAgent _ _ => .ok ([], u)
  | .removeAgent _ => .ok ([], u)
  | .exclude _ => .ok ([], u)
  | .draw =>
    let shares := u.tree.plainShares u.weights
    let (order, g) := Race.shuffle (shares.map (·.1)) (shares.map (·.2)) u.generator
    .ok (order, { u with generator := g })

end Uncached

namespace Lottery

open RoleTree (Recast)

variable {α ω γ : Type}

def dropWeights : Recast α α ω Empty := ⟨fun _ => none, id, rfl, rfl⟩

def dropHoldings : Recast α α ω Empty := Recast.dropAll

variable [Weight ω]

theorem plainShares_tree {β υ : Type} (r : Recast α β υ Empty) (t : RoleTree α υ)
    (weights : Table ω) : (r.tree t).plainShares weights = t.plainShares weights := by
  simp only [RoleTree.plainShares, Recast.sharesBy_tree, Recast.node_tree, Recast.node]

omit [Weight ω] in
theorem dropWeights_forgetWeights (t : RoleTree α ω) (id : NodeId) :
    dropWeights.tree (t.forgetWeights id) = dropWeights.tree t := by
  refine RoleTree.forgetWithin_induction
    (motive := fun u => dropWeights.tree u = dropWeights.tree t) ?_ _ id rfl
  intro u x hu
  rw [← hu]
  apply dropWeights.tree_modify_hidden
  exact fun _ => rfl

theorem dropWeights_keepWeights (t : RoleTree α ω) (weights : Table ω) :
    dropWeights.tree (t.keepWeights weights) = dropWeights.tree t := by
  refine RoleTree.keepWithin_induction
    (motive := fun u => dropWeights.tree u = dropWeights.tree t) ?_ _ _ _ rfl
  intro u x hu
  rw [← hu]
  apply dropWeights.tree_modify_hidden
  exact fun _ => rfl

/-- The lottery keeps only what the other one would compute. -/
structure Mirrors (l : Lottery α ω γ) (u : Uncached α ω γ) : Prop where
  tree : u.tree = dropWeights.tree l.tree
  weights : u.weights = l.weights
  generator : u.generator = l.generator
  total : u.total = l.total
  coherent : l.tree.Coherent l.weights
  cache : l.cache.isDirty = false → l.cache.shares = l.tree.plainShares l.weights

namespace Mirrors

variable {l l' : Lottery α ω γ} {u u' : Uncached α ω γ}

theorem start (settings : Settings) (g : γ) :
    Mirrors (Lottery.start settings g : Lottery α ω γ) (Uncached.start g) := by
  constructor
  case tree => exact dropWeights.tree_empty.symm
  case weights => rfl
  case generator => rfl
  case total => rfl
  case coherent => exact RoleTree.Coherent.empty
  case cache => exact fun hdirty => absurd hdirty (by simp [Lottery.start, ShareCache.empty])

theorem add [Amount α] [RaceTime ω] [WordSource γ] (h : Mirrors l u) (client : String) :
    Agree id Mirrors (silent (l.add client)) (u.attempt (.add client)) := by
  unfold Lottery.add
  simp only [Uncached.attempt, h.tree, Recast.add_tree]
  cases ht : l.tree.add client with
  | error fault => apply Agree.error
  | ok t =>
    apply Agree.ok
    constructor
    case tree => rfl
    case weights => exact h.weights
    case generator => exact h.generator
    case total => exact h.total
    case coherent => exact h.coherent.add ht
    case cache => exact fun hdirty => absurd hdirty (by simp [markDirty])

theorem remove [Amount α] [RaceTime ω] [WordSource γ] (h : Mirrors l u) (client : String) :
    Agree id Mirrors (silent (l.remove client)) (u.attempt (.remove client)) := by
  unfold Lottery.remove
  simp only [Uncached.attempt, h.tree, Recast.remove_tree]
  cases ht : l.tree.remove client with
  | error fault => apply Agree.error
  | ok removed =>
    apply Agree.ok
    constructor
    case tree => rfl
    case weights => exact h.weights
    case generator => exact h.generator
    case total => exact congrArg (· - removed.2.totals) h.total
    case coherent => exact h.coherent.remove ht
    case cache => exact fun hdirty => absurd hdirty (by simp [markDirty])

theorem setActivity (h : Mirrors l u) (client : String) (active : Bool) :
    Agree id Mirrors (silent (l.setActivity client active))
      (silent (u.setActivity client active)) := by
  unfold Lottery.setActivity Uncached.setActivity
  rw [h.tree, Recast.setActivity_tree]
  cases ht : l.tree.setActivity client active with
  | error fault => apply Agree.error
  | ok result =>
    obtain ⟨t, changed⟩ := result
    cases changed with
    | false =>
      obtain rfl := RoleTree.eq_of_setActivity ht
      apply Agree.ok
      exact ⟨rfl, h.weights, h.generator, h.total, h.coherent, h.cache⟩
    | true =>
      apply Agree.ok
      constructor
      case tree => rfl
      case weights => exact h.weights
      case generator => exact h.generator
      case total => exact h.total
      case coherent => exact h.coherent.setActivity ht
      case cache => exact fun hdirty => absurd hdirty (by simp [markDirty])

theorem setWeight [Amount α] [RaceTime ω] [WordSource γ] (h : Mirrors l u) (hl : l.tree.Linked [])
    (path : String) (weight : ω) :
    Agree id Mirrors (silent (l.setWeight path weight)) (u.attempt (.setWeight path weight)) := by
  unfold Lottery.setWeight
  simp only [Uncached.attempt]
  cases hsplit : RolePath.split path with
  | error fault => apply Agree.error
  | ok names =>
    dsimp only
    split
    · apply Agree.error
    · apply Agree.ok
      constructor
      case tree =>
        rw [h.tree]
        dsimp only [markDirty]
        cases l.tree.find? path with
        | none => rfl
        | some id => exact (dropWeights_forgetWeights l.tree id).symm
      case weights => exact congrArg (Table.insert · path weight) h.weights
      case generator => exact h.generator
      case total => exact h.total
      case coherent =>
        exact h.coherent.setWeight hl (RolePath.of_split_eq_ok hsplit).1 weight
      case cache => exact fun hdirty => absurd hdirty (by simp [markDirty])

/-! ## Holdings -/

theorem withLedger (h : Mirrors l u) (leaf : NodeId) (ledger : Ledger α) (total : Quantities α) :
    Mirrors { l.withLedger leaf ledger with total := total } (u.withLedger leaf ledger total) := by
  constructor
  case tree =>
    simp only [Uncached.withLedger, h.tree]
    exact dropWeights.tree_modify l.tree (fun _ => rfl) leaf
  case weights => exact h.weights
  case generator => exact h.generator
  case total => rfl
  case coherent => exact h.coherent.modify _ fun _ hn => hn.congr rfl rfl
  case cache =>
    intro hdirty
    have hhidden :
        dropHoldings.tree (l.withLedger leaf ledger).tree = dropHoldings.tree l.tree := by
      apply dropHoldings.tree_modify_hidden
      exact fun _ => rfl
    rw [← plainShares_tree dropHoldings, hhidden, plainShares_tree]
    exact h.cache hdirty

theorem withLeaf_eq {β : Type} (h : Mirrors l u) (client : String)
    (f : NodeId → Ledger α → Except (LotteryError α ω) β) :
    u.withLeaf client f = match l.tree.client? client with
      | none => .error (.client (.unknown client))
      | some leaf => f leaf (l.tree.node leaf).ledger := by
  simp only [Uncached.withLeaf, h.tree, Recast.client?_tree, Recast.node_tree]
  rfl

variable [Amount α] [RaceTime ω] [WordSource γ]

theorem allocate (h : Mirrors l u) (client agent : String) (bundle : Bundle α) :
    Agree id Mirrors (silent (l.allocate client agent bundle))
      (u.attempt (.allocate client agent bundle)) := by
  unfold Lottery.allocate
  simp only [Uncached.attempt, h.withLeaf_eq]
  cases l.tree.client? client with
  | none => apply Agree.error
  | some leaf =>
    apply Agree.ok
    rw [h.total]
    exact h.withLedger leaf _ _

theorem release (h : Mirrors l u) (client agent : String) (bundle : Bundle α) :
    Agree id Mirrors (silent (l.release client agent bundle))
      (u.attempt (.release client agent bundle)) := by
  unfold Lottery.release
  simp only [Uncached.attempt, h.withLeaf_eq]
  cases l.tree.client? client with
  | none => apply Agree.error
  | some leaf =>
    dsimp only
    cases (l.tree.node leaf).ledger.checkRelease agent bundle with
    | error fault => apply Agree.error
    | ok _ =>
      apply Agree.ok
      rw [h.total]
      exact h.withLedger leaf _ _

theorem replace (h : Mirrors l u) (client agent : String) (old new : Bundle α) :
    Agree id Mirrors (silent (l.replace client agent old new))
      (u.attempt (.replace client agent old new)) := by
  unfold Lottery.replace
  simp only [Uncached.attempt, h.withLeaf_eq]
  cases l.tree.client? client with
  | none => apply Agree.error
  | some leaf =>
    dsimp only
    cases (l.tree.node leaf).ledger.checkReplace agent old with
    | error fault => apply Agree.error
    | ok _ =>
      apply Agree.ok
      rw [h.total]
      exact h.withLedger leaf _ _

/-! ## Draws -/

theorem draw (h : Mirrors l u) : Agree id Mirrors (.ok l.draw) (u.attempt .draw) := by
  have hplain : u.tree.plainShares u.weights = l.tree.plainShares l.weights := by
    rw [h.tree, h.weights, plainShares_tree]
  have hkeep : dropWeights.tree (l.cache.renew l.tree l.weights).2 = dropWeights.tree l.tree ∧
      (l.cache.renew l.tree l.weights).2.Coherent l.weights ∧
      (l.cache.renew l.tree l.weights).1.shares = l.tree.plainShares l.weights := by
    unfold ShareCache.renew
    split
    · exact ⟨dropWeights_keepWeights l.tree l.weights, h.coherent.keepWeights, h.coherent.shares_eq⟩
    · rename_i hdirty
      exact ⟨rfl, h.coherent, h.cache (by simpa using hdirty)⟩
  obtain ⟨htree, hcoherent, hshares⟩ := hkeep
  have hreply : u.attempt .draw = .ok (l.draw.1, { u with generator := l.draw.2.generator }) := by
    simp only [Uncached.attempt, Lottery.draw, hplain, hshares, h.generator]
  rw [hreply]
  suffices hlast : Mirrors l.draw.2 { u with generator := l.draw.2.generator } from
    Agree.ok hlast
  constructor
  case tree => exact h.tree.trans htree.symm
  case weights => exact h.weights
  case generator => rfl
  case total => exact h.total
  case coherent => exact hcoherent
  case cache =>
    intro _
    exact hshares.trans (by rw [← plainShares_tree dropWeights, ← htree, plainShares_tree]; rfl)

theorem attempt (h : Mirrors l u) (hs : l.tree.Sound) (c : Call α ω) :
    Agree id Mirrors (l.attempt c) (u.attempt c) := by
  cases c with
  | add client => exact h.add client
  | remove client => exact h.remove client
  | activate client => exact h.setActivity client true
  | deactivate client => exact h.setActivity client false
  | setWeight path weight => exact h.setWeight hs.linked path weight
  | allocate client agent bundle => exact h.allocate client agent bundle
  | release client agent bundle => exact h.release client agent bundle
  | replace client agent old new => exact h.replace client agent old new
  | addAgent agent capacity => exact Agree.ok h
  | removeAgent agent => exact Agree.ok h
  | exclude excluded =>
    exact Agree.ok ⟨h.tree, h.weights, h.generator, h.total, h.coherent, h.cache⟩
  | draw => exact h.draw

theorem run (settings : Settings) (g : γ) (calls : List (Call α ω)) :
    replies settings g calls = (RoleLottery.run Uncached.attempt (Uncached.start g) calls).1 ∧
      Mirrors (after settings g calls)
        (RoleLottery.run Uncached.attempt (Uncached.start g) calls).2 := by
  obtain ⟨hreplies, -, hlast⟩ := run_agree
    (R := fun (l : Lottery α ω γ) u => l.tree.Sound ∧ Mirrors l u)
    (fun l u c h => (h.2.attempt h.1 c).and fun _ _ hl => sound_attempt h.1 hl)
    ⟨RoleTree.sound_empty, start settings g⟩ calls
  rw [Except.map_id, List.map_id] at hreplies
  exact ⟨hreplies, hlast⟩

end Mirrors

/-- No run tells a lottery from one that keeps nothing for later. Whatever it keeps is what it would
look up or compute now. -/
theorem replies_as_uncached [Amount α] [RaceTime ω] [WordSource γ] (settings : Settings) (g : γ)
    (calls : List (Call α ω)) :
    replies settings g calls = (RoleLottery.run Uncached.attempt (Uncached.start g) calls).1 ∧
      (∀ id kept, ((after settings g calls).tree.node id).weight = some kept →
        kept = RoleTree.configured (after settings g calls).weights
          ((after settings g calls).tree.node id).path) ∧
      ((after settings g calls).cache.isDirty = false →
        (after settings g calls).cache.shares =
          (after settings g calls).tree.shares (after settings g calls).weights) := by
  obtain ⟨hreplies, h⟩ := Mirrors.run settings g calls
  refine ⟨hreplies, h.coherent, fun hdirty => ?_⟩
  rw [h.cache hdirty, h.coherent.shares_eq]
  rfl

end Lottery

end RoleLottery
