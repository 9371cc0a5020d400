import RoleLottery.Proofs.Lottery.Books
import RoleLottery.Proofs.RoleTree.Recast

/-!
# Draws and holdings keep apart

Both halves of a lottery live in one tree, and the leaves carry what their clients hold along as
they move. Still the calls that change holdings never show in a draw or in the tree, and the calls
that concern draws alone never show in the books.
-/

namespace RoleLottery

variable {α ω γ : Type}

def Call.changesHoldings : Call α ω → Bool
  | .allocate _ _ _ => true
  | .release _ _ _ => true
  | .replace _ _ _ _ => true
  | _ => false

/-- A call that draws, or that changes the odds of registered clients. -/
def Call.concernsDraws : Call α ω → Bool
  | .activate _ => true
  | .deactivate _ => true
  | .setWeight _ _ => true
  | .draw => true
  | _ => false

/-! ## Trees without holdings -/

namespace RoleTree.Recast

def dropLedgers : Recast α α ω ω :=
  { (dropAll : Recast α α ω ω) with weight := id, weight_none := rfl }

variable [Weight ω] (t : RoleTree α ω) (weights : Table ω)

theorem weight_dropLedgers : (dropLedgers.tree t).weight weights = t.weight weights := by
  funext id
  simp only [RoleTree.weight, node_tree, node]
  rfl

@[simp]
theorem shares_dropLedgers : (dropLedgers.tree t).shares weights = t.shares weights := by
  rw [shares, shares, sharesBy_tree, weight_dropLedgers]

theorem keepWeight_dropLedgers (id : NodeId) :
    (dropLedgers.tree t).keepWeight weights id = dropLedgers.tree (t.keepWeight weights id) := by
  unfold keepWeight
  apply dropLedgers.tree_modify
  exact fun _ => rfl

theorem keepWithin_dropLedgers (live : List NodeId) (depth : Nat) (id : NodeId) :
    keepWithin weights live depth (dropLedgers.tree t) id =
      dropLedgers.tree (keepWithin weights live depth t id) := by
  induction depth generalizing t id with
  | zero => rfl
  | succ depth ih =>
    simp only [keepWithin, liveChildren, node_tree, node]
    split
    · rw [List.foldl_hom _ fun u child => keepWeight_dropLedgers u weights child,
        List.foldl_hom _ ih]
    · rfl

@[simp]
theorem keepWeights_dropLedgers :
    (dropLedgers.tree t).keepWeights weights = dropLedgers.tree (t.keepWeights weights) := by
  rw [keepWeights, keepWeights, live_tree, top_tree, size_slots_tree, keepWithin_dropLedgers]

end RoleTree.Recast

namespace Lottery

open RoleTree (Recast)

variable {l l' : Lottery α ω γ} {c : Call α ω}

/-! ## Draws without holdings -/

/-- The lottery as it would be if nobody held anything. -/
def withoutHoldings (l : Lottery α ω γ) : Lottery α ω γ :=
  { l with tree := Recast.dropLedgers.tree l.tree, total := {} }

theorem withoutHoldings_withLedger (l : Lottery α ω γ) (leaf : NodeId) (ledger : Ledger α)
    (total : Quantities α) :
    withoutHoldings { l.withLedger leaf ledger with total := total } = l.withoutHoldings := by
  simp only [withoutHoldings, withLedger, Lottery.mk.injEq, and_true, true_and]
  apply Recast.tree_modify_hidden
  exact fun _ => rfl

theorem silent_map {σ τ ε : Type} (f : σ → τ) (r : Except ε σ) :
    (silent r).map (Prod.map id f) = silent (r.map f) := by
  cases r <;> rfl

theorem setActivity_withoutHoldings (l : Lottery α ω γ) (client : String) (active : Bool) :
    l.withoutHoldings.setActivity client active =
      (l.setActivity client active).map withoutHoldings := by
  simp only [setActivity, withoutHoldings, Recast.setActivity_tree]
  cases l.tree.setActivity client active with
  | error fault => rfl
  | ok result =>
    obtain ⟨t, changed⟩ := result
    cases changed <;> rfl

theorem add_withoutHoldings (l : Lottery α ω γ) (client : String) :
    l.withoutHoldings.add client = (l.add client).map withoutHoldings := by
  simp only [add, withoutHoldings, Recast.add_tree]
  cases l.tree.add client <;> rfl

theorem remove_withoutHoldings [Amount α] (l : Lottery α ω γ) (client : String) :
    l.withoutHoldings.remove client = (l.remove client).map withoutHoldings := by
  simp only [remove, withoutHoldings, Recast.remove_tree]
  cases l.tree.remove client <;> rfl

theorem setWeight_withoutHoldings [Weight ω] (l : Lottery α ω γ) (path : String)
    (weight : ω) :
    l.withoutHoldings.setWeight path weight = (l.setWeight path weight).map withoutHoldings := by
  simp only [setWeight, withoutHoldings, Recast.find?_tree]
  cases RolePath.split path with
  | error fault => rfl
  | ok names =>
    dsimp only
    split
    · rfl
    · cases l.tree.find? path with
      | none => rfl
      | some id =>
        simp only [Recast.forgetWeights_tree]
        rfl

theorem draw_withoutHoldings [Weight ω] [RaceTime ω] [WordSource γ] (l : Lottery α ω γ) :
    l.withoutHoldings.draw = Prod.map id withoutHoldings l.draw := by
  have hrenew : l.cache.renew (Recast.dropLedgers.tree l.tree) l.weights =
      Prod.map id Recast.dropLedgers.tree (l.cache.renew l.tree l.weights) := by
    unfold ShareCache.renew
    split
    · simp only [Recast.shares_dropLedgers, Recast.keepWeights_dropLedgers, Prod.map, id]
    · rfl
  simp only [draw, withoutHoldings, hrenew, Prod.map, id]

variable [Amount α] [Weight ω] [RaceTime ω] [WordSource γ]

theorem attempt_withoutHoldings (l : Lottery α ω γ) (hc : c.changesHoldings = false) :
    l.withoutHoldings.attempt c = (l.attempt c).map (Prod.map id withoutHoldings) := by
  cases c with
  | add client => exact (congrArg silent (l.add_withoutHoldings client)).trans (silent_map _ _).symm
  | remove client =>
    exact (congrArg silent (l.remove_withoutHoldings client)).trans (silent_map _ _).symm
  | activate client =>
    exact (congrArg silent (l.setActivity_withoutHoldings client true)).trans (silent_map _ _).symm
  | deactivate client =>
    exact (congrArg silent (l.setActivity_withoutHoldings client false)).trans (silent_map _ _).symm
  | setWeight path weight =>
    exact (congrArg silent (l.setWeight_withoutHoldings path weight)).trans (silent_map _ _).symm
  | allocate client agent bundle => cases hc
  | release client agent bundle => cases hc
  | replace client agent old new => cases hc
  | addAgent agent capacity => rfl
  | removeAgent agent => rfl
  | exclude excluded => rfl
  | draw => exact congrArg Except.ok l.draw_withoutHoldings

theorem withoutHoldings_of_attempt {order : List String} (hc : c.changesHoldings = true)
    (hl : l.attempt c = .ok (order, l')) : l'.withoutHoldings = l.withoutHoldings := by
  cases c with
  | allocate client agent bundle =>
    have hallocate := eq_of_silent hl
    unfold allocate at hallocate
    split at hallocate <;> cases hallocate
    apply withoutHoldings_withLedger
  | release client agent bundle =>
    have hrelease := eq_of_silent hl
    unfold release at hrelease
    split at hrelease
    · cases hrelease
    · split at hrelease <;> cases hrelease
      apply withoutHoldings_withLedger
  | replace client agent old new =>
    have hreplace := eq_of_silent hl
    unfold replace at hreplace
    split at hreplace
    · cases hreplace
    · split at hreplace <;> cases hreplace
      apply withoutHoldings_withLedger
  | add client => cases hc
  | remove client => cases hc
  | activate client => cases hc
  | deactivate client => cases hc
  | setWeight path weight => cases hc
  | addAgent agent capacity => cases hc
  | removeAgent agent => cases hc
  | exclude excluded => cases hc
  | draw => cases hc

theorem run_withoutHoldings (settings : Settings) (g : γ) (calls : List (Call α ω)) :
    let kept := calls.filter (!·.changesHoldings)
    repliesTo (!·.changesHoldings) calls (replies settings g calls) = replies settings g kept ∧
      (after settings g calls).withoutHoldings = (after settings g kept).withoutHoldings := by
  refine run_filter (R := fun l l' : Lottery α ω γ => l.withoutHoldings = l'.withoutHoldings)
    ?_ ?_ rfl calls
  · intro l l' c hc h
    have hc : c.changesHoldings = false := by simpa using hc
    apply Agree.of_map_eq
    rw [← attempt_withoutHoldings l hc, h, attempt_withoutHoldings l' hc]
  · intro l l' c order l₁ hc h hl
    exact (withoutHoldings_of_attempt (by simpa using hc) hl).trans h

end Lottery

/-! ## Books without activity -/

/-- The same clients hold the same, whoever of them is active. -/
structure SameBooks (b b' : Accounts α × Quantities α) : Prop where
  ledger? : ∀ client, (b.1.get? client).map (·.ledger) = (b'.1.get? client).map (·.ledger)
  total : b.2 = b'.2

namespace SameBooks

variable {a a' : Accounts α} {q q' : Quantities α} {b b' : Accounts α × Quantities α}
  {client : String}

theorem refl (b : Accounts α × Quantities α) : SameBooks b b := ⟨fun _ => rfl, rfl⟩

theorem trans {b'' : Accounts α × Quantities α} (h : SameBooks b b') (h' : SameBooks b' b'') :
    SameBooks b b'' :=
  ⟨fun client => (h.ledger? client).trans (h'.ledger? client), h.total.trans h'.total⟩

theorem ledger_eq (h : SameBooks b b') {account account' : Account α}
    (haccount : b.1.get? client = some account) (haccount' : b'.1.get? client = some account') :
    account.ledger = account'.ledger := by
  have hledger := h.ledger? client
  rw [haccount, haccount'] at hledger
  exact Option.some.inj hledger

theorem ledger (h : SameBooks b b') (client : String) : b.1.ledger client = b'.1.ledger client := by
  have hledger := h.ledger? client
  unfold Accounts.ledger
  cases haccount : b.1.get? client with
  | none =>
    rw [haccount, Option.map_none, eq_comm, Option.map_eq_none_iff] at hledger
    rw [hledger]
  | some account =>
    rw [haccount, Option.map_some, eq_comm, Option.map_eq_some_iff] at hledger
    obtain ⟨account', haccount', heq⟩ := hledger
    rw [haccount']
    exact heq.symm

theorem contains (h : SameBooks b b') (client : String) :
    b.1.contains client = b'.1.contains client := by
  have hledger := congrArg Option.isSome (h.ledger? client)
  rwa [Option.isSome_map, Option.isSome_map] at hledger

theorem insert (h : SameBooks b b') (client : String) {new new' : Account α}
    (hnew : new.ledger = new'.ledger) (hq : q = q') :
    SameBooks (b.1.insert client new, q) (b'.1.insert client new', q') := by
  refine ⟨fun other => ?_, hq⟩
  rw [Table.get?_insert, Table.get?_insert]
  split
  · exact congrArg some hnew
  · exact h.ledger? other

theorem erase (h : SameBooks b b') (client : String) (hq : q = q') :
    SameBooks (b.1.erase client, q) (b'.1.erase client, q') := by
  refine ⟨fun other => ?_, hq⟩
  rw [Table.get?_erase, Table.get?_erase]
  split
  · rfl
  · exact h.ledger? other

theorem insert_same {account : Account α} (haccount : a.get? client = some account)
    (active : Bool) : SameBooks (a.insert client ⟨active, account.ledger⟩, q) (a, q) := by
  refine ⟨fun other => ?_, rfl⟩
  rw [Table.get?_insert]
  split
  · rename_i hother
    rw [← hother, haccount, Option.map_some, Option.map_some]
  · rfl

end SameBooks

/-! ## Postings to the same books -/

section Posting

variable [Amount α] {c : Call α ω} {b b' d d' : Accounts α × Quantities α}

theorem Posting.sameBooks (p : Posting c b b') (hc : c.concernsDraws = true) : SameBooks b' b := by
  cases p with
  | idle _ => exact .refl _
  | activate haccount => exact .insert_same haccount true
  | deactivate haccount => exact .insert_same haccount false
  | add _ => cases hc
  | remove _ => cases hc
  | allocate _ => cases hc
  | release _ _ => cases hc
  | replace _ _ => cases hc

theorem Posting.congr (p : Posting c b b') (p' : Posting c d d') (hc : c.concernsDraws = false)
    (h : SameBooks b d) : SameBooks b' d' := by
  cases p with
  | idle hidle =>
    cases p' with
    | idle _ => exact h
    | _ => cases hidle
  | add _ =>
    cases p' with
    | idle hidle => cases hidle
    | add _ => exact h.insert _ rfl h.total
  | remove haccount =>
    cases p' with
    | idle hidle => cases hidle
    | remove haccount' =>
      have htotals := congrArg Ledger.totals (h.ledger_eq haccount haccount')
      exact h.erase _ (congrArg₂ (· - ·) h.total htotals)
  | activate _ => cases hc
  | deactivate _ => cases hc
  | allocate haccount =>
    cases p' with
    | idle hidle => cases hidle
    | allocate haccount' =>
      rw [h.ledger_eq haccount haccount']
      exact h.insert _ rfl (congrArg (· + _) h.total)
  | release haccount _ =>
    cases p' with
    | idle hidle => cases hidle
    | release haccount' _ =>
      rw [h.ledger_eq haccount haccount']
      exact h.insert _ rfl (congrArg (· - _) h.total)
  | replace haccount _ =>
    cases p' with
    | idle hidle => cases hidle
    | replace haccount' _ =>
      rw [h.ledger_eq haccount haccount']
      exact h.insert _ rfl (congrArg (· - _ + _) h.total)

end Posting

namespace Accounts

variable {a a' : Accounts α} {q q' : Quantities α}

theorem outcome_withAccount {β : Type} (h : SameBooks (a, q) (a', q')) {client : String}
    {f f' : Account α → Except (LotteryError α ω) β}
    (hf : ∀ account account', account.ledger = account'.ledger →
      outcome (f account) = outcome (f' account')) :
    outcome (a.withAccount client f) = outcome (a'.withAccount client f') := by
  have hledger := h.ledger? client
  unfold withAccount
  cases haccount : a.get? client with
  | none =>
    rw [haccount, Option.map_none, eq_comm, Option.map_eq_none_iff] at hledger
    rw [hledger]
  | some account =>
    rw [haccount, Option.map_some, eq_comm, Option.map_eq_some_iff] at hledger
    obtain ⟨account', haccount', heq⟩ := hledger
    rw [haccount']
    exact hf account account' heq.symm

theorem outcome_attempt [Amount α] [Weight ω] (h : SameBooks (a, q) (a', q')) (c : Call α ω) :
    outcome (a.attempt c) = outcome (a'.attempt c) := by
  cases c with
  | add client =>
    simp only [attempt, h.contains client]
    cases RolePath.split client with
    | error fault => rfl
    | ok names =>
      dsimp only
      split <;> rfl
  | remove client => exact outcome_withAccount h fun _ _ _ => rfl
  | activate client => exact outcome_withAccount h fun _ _ _ => rfl
  | deactivate client => exact outcome_withAccount h fun _ _ _ => rfl
  | setWeight path weight =>
    simp only [attempt]
    cases RolePath.split path with
    | error fault => rfl
    | ok names =>
      dsimp only
      split <;> rfl
  | allocate client agent bundle => exact outcome_withAccount h fun _ _ _ => rfl
  | release client agent bundle =>
    refine outcome_withAccount h fun account account' heq => ?_
    rw [heq]
    cases account'.ledger.checkRelease agent bundle <;> rfl
  | replace client agent old new =>
    refine outcome_withAccount h fun account account' heq => ?_
    rw [heq]
    cases account'.ledger.checkReplace agent old <;> rfl
  | addAgent agent capacity => rfl
  | removeAgent agent => rfl
  | exclude excluded => rfl
  | draw => rfl

end Accounts

/-! ## Runs -/

namespace Lottery

open RoleTree (Recast)

variable [Amount α] [Weight ω] [RaceTime ω] [WordSource γ] {l l' : Lottery α ω γ} {c : Call α ω}

def AgreesInBooks (l l' : Lottery α ω γ) : Prop :=
  ∃ a a', Tracks l a ∧ Tracks l' a' ∧ SameBooks (a, l.total) (a', l'.total)

theorem eq_nil_of_attempt {order : List String} (hc : c.concernsDraws = false)
    (hl : l.attempt c = .ok (order, l')) : order = [] := by
  have hsilent {r : Except (LotteryError α ω) (Lottery α ω γ)}
      (h : silent r = .ok (order, l')) : order = [] := by
    cases r with
    | error e => cases h
    | ok l => cases h; rfl
  cases c with
  | draw => cases hc
  | addAgent _ _ => cases hl; rfl
  | removeAgent _ => cases hl; rfl
  | exclude _ => cases hl; rfl
  | _ => exact hsilent hl

theorem AgreesInBooks.attempt (h : AgreesInBooks l l') (hc : c.concernsDraws = false) :
    Agree id AgreesInBooks (l.attempt c) (l'.attempt c) := by
  obtain ⟨a, a', htracks, htracks', hbooks⟩ := h
  have houtcome : outcome (l.attempt c) = outcome (l'.attempt c) := by
    rw [(htracks.attempt c).outcome_eq, (htracks'.attempt c).outcome_eq]
    exact Accounts.outcome_attempt hbooks c
  cases hl : l.attempt c with
  | error e =>
    cases hl' : l'.attempt c with
    | error e' =>
      rw [hl, hl'] at houtcome
      obtain rfl := Except.error.inj houtcome
      exact Agree.error e
    | ok r =>
      rw [hl, hl'] at houtcome
      cases houtcome
  | ok r =>
    cases hl' : l'.attempt c with
    | error e' =>
      rw [hl, hl'] at houtcome
      cases houtcome
    | ok r' =>
      obtain ⟨order, l₁⟩ := r
      obtain ⟨order', l₁'⟩ := r'
      obtain ⟨b, hb, p⟩ := htracks.posting hl
      obtain ⟨b', hb', p'⟩ := htracks'.posting hl'
      obtain rfl := eq_nil_of_attempt hc hl
      obtain rfl := eq_nil_of_attempt hc hl'
      exact Agree.ok ⟨b, b', hb, hb', p.congr p' hc hbooks⟩

theorem AgreesInBooks.of_attempt {l₁ : Lottery α ω γ} {order : List String}
    (h : AgreesInBooks l l') (hc : c.concernsDraws = true) (hl : l.attempt c = .ok (order, l₁)) :
    AgreesInBooks l₁ l' := by
  obtain ⟨a, a', htracks, htracks', hbooks⟩ := h
  obtain ⟨b, hb, p⟩ := htracks.posting hl
  exact ⟨b, a', hb, htracks', (p.sameBooks hc).trans hbooks⟩

theorem run_agreesInBooks (settings : Settings) (g : γ) (calls : List (Call α ω)) :
    let kept := calls.filter (!·.concernsDraws)
    repliesTo (!·.concernsDraws) calls (replies settings g calls) = replies settings g kept ∧
      AgreesInBooks (after settings g calls) (after settings g kept) := by
  refine run_filter (R := AgreesInBooks) ?_ ?_ ?_ calls
  · exact fun l l' c hc h => h.attempt (by simpa using hc)
  · exact fun l l' c order l₁ hc h hl => h.of_attempt (by simpa using hc) hl
  · exact ⟨{}, {}, .start settings g, .start settings g, .refl _⟩

/-- Without the calls that change holdings, all other calls of a run have the same replies, the
draws among them, and who is registered, how many are active, whether shares are computed anew and
the outline of the tree are the same. Without the calls that only concern draws, all other calls
have the same replies, and all holdings and totals are the same. -/
theorem draws_apart_from_holdings (settings : Settings) (g : γ) (calls : List (Call α ω)) :
    (let kept := calls.filter (!·.changesHoldings)
      let l := after settings g calls
      let l' := after settings g kept
      repliesTo (!·.changesHoldings) calls (replies settings g calls) = replies settings g kept ∧
        (∀ client, l.contains client = l'.contains client) ∧ l.count = l'.count ∧
        l.activeCount = l'.activeCount ∧ l.cache.isDirty = l'.cache.isDirty ∧
        l.tree.outline = l'.tree.outline) ∧
    (let kept := calls.filter (!·.concernsDraws)
      let l := after settings g calls
      let l' := after settings g kept
      repliesTo (!·.concernsDraws) calls (replies settings g calls) = replies settings g kept ∧
        (∀ client, l.allocation client = l'.allocation client) ∧
        (∀ client agent, l.allocationOn client agent = l'.allocationOn client agent) ∧
        (∀ client, l.totals client = l'.totals client) ∧ l.total = l'.total) := by
  constructor
  · obtain ⟨hreplies, hlast⟩ := run_withoutHoldings settings g calls
    have htree := congrArg Lottery.tree hlast
    have hclients := congrArg RoleTree.clients htree
    have hactive := congrArg RoleTree.activeCount htree
    have houtline := congrArg RoleTree.outline htree
    simp only [withoutHoldings, Recast.clients_tree, Recast.activeCount_tree,
      Recast.outline_tree] at hclients hactive houtline
    refine ⟨hreplies, fun client => ?_, ?_, hactive, ?_, houtline⟩
    · exact congrArg (·.contains client) hclients
    · exact congrArg Table.size hclients
    · exact congrArg (·.cache.isDirty) hlast
  · obtain ⟨hreplies, a, a', htracks, htracks', hbooks⟩ := run_agreesInBooks settings g calls
    have hledger (client : String) : (after settings g calls).ledger client =
        (after settings g (calls.filter (!·.concernsDraws))).ledger client := by
      rw [htracks.ledger, htracks'.ledger]
      exact hbooks.ledger client
    refine ⟨hreplies, fun client => ?_, fun client agent => ?_, fun client => ?_, hbooks.total⟩
    · exact congrArg Ledger.holdings (hledger client)
    · exact congrArg (fun ledger => (ledger.heldOn? agent).getD {}) (hledger client)
    · exact congrArg Ledger.totals (hledger client)

end Lottery

end RoleLottery
