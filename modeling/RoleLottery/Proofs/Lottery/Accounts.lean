import RoleLottery.Proofs.Lottery.Calls
import RoleLottery.Proofs.RoleTree.History

/-!
# A lottery as a flat table of accounts

To its callers a lottery is a table of accounts: for each client whether it is active and what it
holds. Where the leaves stand in the tree, and how they move, never shows.
-/

namespace RoleLottery

abbrev Accounts (α : Type) := Table (Account α)

namespace Accounts

variable {α ω : Type}

def withAccount {β : Type} (a : Accounts α) (client : String)
    (f : Account α → Except (LotteryError α ω) β) : Except (LotteryError α ω) β :=
  match a.get? client with
  | some account => f account
  | none => .error (.client (.unknown client))

def attempt [Amount α] [Weight ω] (a : Accounts α) :
    Call α ω → Except (LotteryError α ω) (Unit × Accounts α)
  | .add client =>
    match RolePath.split client with
    | .error fault => .error (.client (.invalidPath client fault))
    | .ok _ =>
      if a.contains client then .error (.client (.alreadyPresent client))
      else .ok ((), a.insert client ⟨false, {}⟩)
  | .remove client => a.withAccount client fun _ => .ok ((), a.erase client)
  | .activate client =>
    a.withAccount client fun account => .ok ((), a.insert client ⟨true, account.ledger⟩)
  | .deactivate client =>
    a.withAccount client fun account => .ok ((), a.insert client ⟨false, account.ledger⟩)
  | .setWeight path weight =>
    match RolePath.split path with
    | .error fault => .error (.client (.invalidPath path fault))
    | .ok _ =>
      if !Weight.isFinite weight || Weight.lt weight Weight.zero then
        .error (.invalidWeight path weight)
      else .ok ((), a)
  | .allocate client agent bundle =>
    a.withAccount client fun account =>
      .ok ((), a.insert client ⟨account.active, (account.ledger.add agent bundle).1⟩)
  | .release client agent bundle =>
    a.withAccount client fun account =>
      match account.ledger.checkRelease agent bundle with
      | .error fault => .error (.ledger client agent fault)
      | .ok () =>
        .ok ((), a.insert client ⟨account.active, (account.ledger.release agent bundle).1⟩)
  | .replace client agent old new =>
    a.withAccount client fun account =>
      match account.ledger.checkReplace agent old with
      | .error fault => .error (.ledger client agent fault)
      | .ok () =>
        .ok ((), a.insert client ⟨account.active, (account.ledger.replace agent old new).1⟩)
  | .addAgent _ _ => .ok ((), a)
  | .removeAgent _ => .ok ((), a)
  | .exclude _ => .ok ((), a)
  | .draw => .ok ((), a)

def ledger (a : Accounts α) (client : String) : Ledger α :=
  match a.get? client with
  | some account => account.ledger
  | none => {}

end Accounts

namespace Lottery

variable {α ω γ : Type} {l l' : Lottery α ω γ} {a : Accounts α} {client : String}
  {account : Account α}

/-- All questions about clients have the same answers. -/
structure AnswersAs [Amount α] [Weight ω] (l : Lottery α ω γ) (a : Accounts α) : Prop where
  contains : ∀ client, l.contains client = a.contains client
  count : l.count = a.size
  activeCount : l.activeCount = a.values.countP (·.active)
  allocation : ∀ client, l.allocation client = (a.ledger client).holdings
  allocationOn : ∀ client agent,
    l.allocationOn client agent = ((a.ledger client).heldOn? agent).getD {}
  totals : ∀ client, l.totals client = (a.ledger client).totals

/-- The tree is sound, and keeps these accounts. -/
structure Tracks (l : Lottery α ω γ) (a : Accounts α) : Prop where
  sound : l.tree.Sound
  account? : ∀ client, l.tree.account? client = a.get? client

namespace Tracks

theorem start (settings : Settings) (g : γ) : Tracks (start settings g : Lottery α ω γ) {} :=
  ⟨RoleTree.sound_empty, fun _ => rfl⟩

theorem of_sound (h : l.tree.Sound) : Tracks l (l.tree.clients.map l.tree.accountAt) :=
  ⟨h, fun client => (Table.get?_map l.tree.accountAt l.tree.clients client).symm⟩

theorem accounts_eq (h : Tracks l a) : l.tree.clients.map l.tree.accountAt = a := by
  apply Table.ext_get?
  intro client
  rw [Table.get?_map, ← h.account?]
  rfl

theorem ledger (h : Tracks l a) (client : String) : l.ledger client = a.ledger client := by
  have haccount := h.account? client
  unfold Lottery.ledger Accounts.ledger
  rw [← haccount, RoleTree.account?]
  cases l.tree.client? client with
  | none => rfl
  | some leaf => rfl

theorem withLedger (h : Tracks l a) {leaf : NodeId} (hleaf : l.tree.client? client = some leaf)
    (ledger : Ledger α) (htree : l'.tree = (l.withLedger leaf ledger).tree) :
    Tracks l' (a.insert client ⟨(l.tree.accountAt leaf).active, ledger⟩) := by
  have s := RoleTree.SameLinks.modify l.tree leaf (f := fun n => { n with ledger := ledger })
    fun n => ⟨n.weight, ledger, rfl⟩
  have hlive := ((h.sound.registered client leaf).mp hleaf).1
  have hnode := l.tree.node_modify_self leaf (fun n => { n with ledger := ledger }) hlive
  refine ⟨htree ▸ s.sound rfl h.sound, fun other => ?_⟩
  rw [htree, Table.get?_insert]
  change RoleTree.account? (l.tree.modify leaf fun n => { n with ledger := ledger }) other = _
  split
  · rename_i hother
    subst hother
    rw [RoleTree.account?, RoleTree.client?_congr (RoleTree.clients_modify _ _ _), hleaf]
    simp [RoleTree.accountAt, hnode]
  · rename_i hother
    rw [← h.account?]
    have hne (id : NodeId) (hid : l.tree.client? other = some id) : id ≠ leaf :=
      h.sound.registered.ne_of_client_ne hleaf hid hother
    exact RoleTree.account?_congr (RoleTree.client?_congr (RoleTree.clients_modify _ _ _) other)
      (fun id hid => by rw [RoleTree.node_modify_ne _ _ _ (hne id hid)])
      (fun id hid => by rw [RoleTree.node_modify_ne _ _ _ (hne id hid)])

theorem withAccount_eq (h : Tracks l a) {β : Type}
    (f : Account α → Except (LotteryError α ω) β) (client : String) :
    a.withAccount client f = match l.tree.client? client with
      | some leaf => f (l.tree.accountAt leaf)
      | none => .error (.client (.unknown client)) := by
  unfold Accounts.withAccount
  rw [← h.account?, RoleTree.account?]
  cases l.tree.client? client with
  | none => rfl
  | some leaf => rfl

theorem setActivity (h : Tracks l a) (client : String) (active : Bool) :
    Agree (fun _ => ()) Tracks (silent (l.setActivity client active))
      (a.withAccount client fun account => .ok ((), a.insert client ⟨active, account.ledger⟩)) := by
  unfold Lottery.setActivity
  simp only [Accounts.withAccount]
  cases haccount : a.get? client with
  | none =>
    rw [RoleTree.setActivity_eq_error ((h.account? client).trans haccount)]
    apply Agree.error
  | some account =>
    obtain ⟨t, changed, ht, hs, hsame, hall⟩ :=
      h.sound.setActivity_eq_ok ((h.account? client).trans haccount) active
    rw [ht]
    have htracks {l' : Lottery α ω γ} (htree : l'.tree = t) :
        Tracks l' (a.insert client ⟨active, account.ledger⟩) := by
      refine ⟨htree ▸ hs, fun other => ?_⟩
      rw [htree, hall, Table.get?_insert, h.account?]
    cases changed with
    | false => exact Agree.ok (htracks (hsame rfl).symm)
    | true => exact Agree.ok (htracks rfl)

variable [Amount α] [Weight ω]

theorem answersAs (h : Tracks l a) : AnswersAs l a := by
  have hcontains (client : String) : l.contains client = a.contains client := by
    have haccount := congrArg Option.isSome (h.account? client)
    rw [RoleTree.account?, Option.isSome_map] at haccount
    exact haccount
  constructor
  case contains => exact hcontains
  case count =>
    rw [← h.accounts_eq, Table.size_map]
    rfl
  case activeCount =>
    rw [← h.accounts_eq, Table.values_map, List.countP_map]
    rfl
  case allocation =>
    intro client
    rw [allocation, h.ledger]
  case allocationOn =>
    intro client agent
    rw [allocationOn, h.ledger]
  case totals =>
    intro client
    rw [totals, h.ledger]

/-! ## One call -/

theorem add (h : Tracks l a) (client : String) :
    Agree (fun _ => ()) Tracks (silent (l.add client)) (a.attempt (.add client)) := by
  unfold Lottery.add
  simp only [Accounts.attempt]
  cases hsplit : RolePath.split client with
  | error fault =>
    rw [l.tree.add_eq_error_of_invalid hsplit]
    apply Agree.error
  | ok names =>
    dsimp only
    cases haccount : a.get? client with
    | some account =>
      rw [RoleTree.add_eq_error_of_present hsplit ((h.account? client).trans haccount),
        if_pos (Table.contains_of_get?_eq_some haccount)]
      apply Agree.error
    | none =>
      obtain ⟨t, ht, hs, hall⟩ := h.sound.add_eq_ok hsplit ((h.account? client).trans haccount)
      rw [ht, if_neg (by simp [Table.contains_of_get?_eq_none haccount])]
      apply Agree.ok
      refine ⟨hs, fun other => (hall other).trans ?_⟩
      rw [Table.get?_insert, h.account?]

theorem remove (h : Tracks l a) (client : String) :
    Agree (fun _ => ()) Tracks (silent (l.remove client)) (a.attempt (.remove client)) := by
  unfold Lottery.remove
  simp only [Accounts.attempt, Accounts.withAccount]
  cases haccount : a.get? client with
  | none =>
    rw [RoleTree.remove_eq_error ((h.account? client).trans haccount)]
    apply Agree.error
  | some account =>
    obtain ⟨t, ht, hs, hall⟩ := h.sound.remove_eq_ok ((h.account? client).trans haccount)
    rw [ht]
    apply Agree.ok
    refine ⟨hs, fun other => (hall other).trans ?_⟩
    rw [Table.get?_erase, h.account?]

theorem setWeight (h : Tracks l a) (path : String) (weight : ω) :
    Agree (fun _ => ()) Tracks (silent (l.setWeight path weight))
      (a.attempt (.setWeight path weight)) := by
  unfold Lottery.setWeight
  simp only [Accounts.attempt]
  cases RolePath.split path with
  | error fault => apply Agree.error
  | ok names =>
    dsimp only
    split
    · apply Agree.error
    · apply Agree.ok
      have s : RoleTree.SameHoldings l.tree (match l.tree.find? path with
          | some id => l.tree.forgetWeights id
          | none => l.tree) := by
        cases l.tree.find? path with
        | none => exact RoleTree.SameHoldings.refl _
        | some id => exact RoleTree.SameHoldings.forgetWeights _ id
      exact ⟨s.sound s.clients h.sound, fun other => (s.account? other).trans (h.account? other)⟩

theorem allocate (h : Tracks l a) (client agent : String) (bundle : Bundle α) :
    Agree (fun _ => ()) Tracks (silent (l.allocate client agent bundle))
      (a.attempt (.allocate client agent bundle)) := by
  unfold Lottery.allocate
  simp only [Accounts.attempt, h.withAccount_eq]
  cases hleaf : l.tree.client? client with
  | none => apply Agree.error
  | some leaf =>
    apply Agree.ok
    exact h.withLedger hleaf _ rfl

theorem release (h : Tracks l a) (client agent : String) (bundle : Bundle α) :
    Agree (fun _ => ()) Tracks (silent (l.release client agent bundle))
      (a.attempt (.release client agent bundle)) := by
  unfold Lottery.release
  simp only [Accounts.attempt, h.withAccount_eq]
  cases hleaf : l.tree.client? client with
  | none => apply Agree.error
  | some leaf =>
    simp only [RoleTree.accountAt]
    cases (l.tree.node leaf).ledger.checkRelease agent bundle with
    | error fault => apply Agree.error
    | ok _ =>
      apply Agree.ok
      exact h.withLedger hleaf _ rfl

theorem replace (h : Tracks l a) (client agent : String) (old new : Bundle α) :
    Agree (fun _ => ()) Tracks (silent (l.replace client agent old new))
      (a.attempt (.replace client agent old new)) := by
  unfold Lottery.replace
  simp only [Accounts.attempt, h.withAccount_eq]
  cases hleaf : l.tree.client? client with
  | none => apply Agree.error
  | some leaf =>
    simp only [RoleTree.accountAt]
    cases (l.tree.node leaf).ledger.checkReplace agent old with
    | error fault => apply Agree.error
    | ok _ =>
      apply Agree.ok
      exact h.withLedger hleaf _ rfl

omit [Amount α] in
theorem draw [RaceTime ω] [WordSource γ] (h : Tracks l a) : Tracks l.draw.2 a := by
  have s : RoleTree.SameHoldings l.tree (l.cache.renew l.tree l.weights).2 := by
    unfold ShareCache.renew
    split
    · exact RoleTree.SameHoldings.keepWeights l.tree l.weights
    · exact RoleTree.SameHoldings.refl l.tree
  exact ⟨s.sound s.clients h.sound, fun client => (s.account? client).trans (h.account? client)⟩

variable [RaceTime ω] [WordSource γ]

theorem attempt (h : Tracks l a) (c : Call α ω) :
    Agree (fun _ => ()) Tracks (l.attempt c) (a.attempt c) := by
  cases c with
  | add client => exact h.add client
  | remove client => exact h.remove client
  | activate client => exact h.setActivity client true
  | deactivate client => exact h.setActivity client false
  | setWeight path weight => exact h.setWeight path weight
  | allocate client agent bundle => exact h.allocate client agent bundle
  | release client agent bundle => exact h.release client agent bundle
  | replace client agent old new => exact h.replace client agent old new
  | addAgent agent capacity => exact Agree.ok h
  | removeAgent agent => exact Agree.ok h
  | exclude excluded => exact Agree.ok ⟨h.sound, h.account?⟩
  | draw => exact Agree.ok h.draw

theorem run (settings : Settings) (g : γ) (calls : List (Call α ω)) :
    (replies settings g calls).map (Except.map fun _ => ()) =
        (RoleLottery.run Accounts.attempt {} calls).1 ∧
      Tracks (after settings g calls) (RoleLottery.run Accounts.attempt {} calls).2 :=
  run_agree (fun _ _ c h => h.attempt c) (start settings g) calls

end Tracks

theorem sound_attempt [Amount α] [Weight ω] [RaceTime ω] [WordSource γ] (h : l.tree.Sound)
    {c : Call α ω} {order : List String} (hl : l.attempt c = .ok (order, l')) : l'.tree.Sound := by
  have hagree := (Tracks.of_sound h).attempt c
  rw [hl] at hagree
  generalize Accounts.attempt _ c = flat at hagree
  cases hagree with
  | ok htracks => exact htracks.sound

/-- No run tells the lottery from a flat table of accounts: every call succeeds or fails alike, with
the same error, and all questions have the same answers afterwards. -/
theorem replies_as_accounts [Amount α] [Weight ω] [RaceTime ω] [WordSource γ]
    (settings : Settings) (g : γ) (calls : List (Call α ω)) :
    (replies settings g calls).map (Except.map fun _ => ()) =
        (RoleLottery.run Accounts.attempt {} calls).1 ∧
      AnswersAs (after settings g calls) (RoleLottery.run Accounts.attempt {} calls).2 := by
  obtain ⟨hreplies, h⟩ := Tracks.run settings g calls
  exact ⟨hreplies, h.answersAs⟩

end Lottery

end RoleLottery
