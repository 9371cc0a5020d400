import RoleLottery.Proofs.Lottery.Accounts
import RoleLottery.Proofs.Lottery.Refusals

/-!
# Calls in place

A lottery that is changed in place, field by field, keeps what a call did before it failed. So
whether a failure leaves a trace depends on the order of checks and changes. No failure does: a call
in place fails for the same causes as the call that returns a new lottery, and then nothing has
changed.
-/

namespace RoleLottery

variable {α ω γ ε σ ρ : Type}

def orElseSame (s : σ) : Except ε (ρ × σ) → EStateM.Result ε σ ρ
  | .ok (reply, s') => .ok reply s'
  | .error e => .error e s

/-- The action returns and leaves behind what the function gives, and an error leaves no trace. -/
def Does (act : EStateM ε σ ρ) (f : σ → Except ε (ρ × σ)) : Prop :=
  ∀ s, act.run s = orElseSame s (f s)

namespace InPlace

/-! ## Trees in place -/

section Tree

variable [Amount α]

def addClient (client : String) : EStateM ClientFault (RoleTree α ω) Unit := do
  match RolePath.split client with
  | .error fault => throw (.invalidPath client fault)
  | .ok names =>
    if (← get).clients.contains client then throw (.alreadyPresent client)
    let leaf ← modifyGet fun t => (t.plant names).swap
    modify fun t => { t with clients := t.clients.insert client leaf }

/-- The client leaves the table before it is known whether it was there. -/
def removeClient (client : String) : EStateM ClientFault (RoleTree α ω) (Ledger α) := do
  let leaf? := (← get).client? client
  modify fun t => { t with clients := t.clients.erase client }
  match leaf? with
  | none => throw (.unknown client)
  | some leaf =>
    let ledger := ((← get).node leaf).ledger
    modify fun t => t.modify leaf fun n => { n with ledger := {} }
    modify fun t => t.tidyUp t.slots.size leaf
    return ledger

def setClientActivity (client : String) (active : Bool) :
    EStateM ClientFault (RoleTree α ω) Bool := do
  match (← get).client? client with
  | none => throw (.unknown client)
  | some leaf =>
    let kind := if active then NodeKind.active else .inactive
    if ((← get).node leaf).kind = kind then return false
    modify fun t => t.modify leaf fun n => { n with kind := kind }
    modify fun t => t.relist leaf
    return true

omit [Amount α] in
theorem does_addClient (client : String) :
    Does (addClient client : EStateM ClientFault (RoleTree α ω) Unit)
      fun t => (t.add client).map ((), ·) := by
  intro t
  unfold addClient RoleTree.add
  cases RolePath.split client with
  | error fault => rfl
  | ok names =>
    simp only [EStateM.run_bind, EStateM.run_get]
    cases t.clients.contains client with
    | true => rfl
    | false => rfl

omit [Amount α] in
theorem does_removeClient (client : String) :
    Does (removeClient client : EStateM ClientFault (RoleTree α ω) (Ledger α))
      fun t => (t.remove client).map Prod.swap := by
  intro t
  unfold removeClient RoleTree.remove
  simp only [EStateM.run_bind, EStateM.run_get, EStateM.run_modify]
  cases hleaf : t.client? client with
  | none =>
    -- What is erased was not there.
    have hsame : t.clients.erase client = t.clients := Table.erase_of_get?_eq_none hleaf
    rw [hsame]
    rfl
  | some leaf => rfl

omit [Amount α] in
theorem does_setClientActivity (client : String) (active : Bool) :
    Does (setClientActivity client active : EStateM ClientFault (RoleTree α ω) Bool)
      fun t => (t.setActivity client active).map Prod.swap := by
  intro t
  unfold setClientActivity RoleTree.setActivity
  simp only [EStateM.run_bind, EStateM.run_get]
  cases t.client? client with
  | none => rfl
  | some leaf =>
    generalize (if active then NodeKind.active else .inactive) = kind
    by_cases hkind : (t.node leaf).kind = kind
    · simp only [EStateM.run_bind, EStateM.run_get, if_pos hkind]
      rfl
    · simp only [EStateM.run_bind, EStateM.run_get, if_neg hkind]
      rfl

end Tree

/-! ## Lotteries in place -/

section Lottery

/-- What the tree keeps of an action that fails, the lottery keeps. -/
def onTree (act : EStateM ClientFault (RoleTree α ω) ρ) :
    EStateM (LotteryError α ω) (Lottery α ω γ) ρ := fun l =>
  match act.run l.tree with
  | .ok reply t => .ok reply { l with tree := t }
  | .error fault t => .error (.client fault) { l with tree := t }

def onLedger (leaf : NodeId) (f : Ledger α → Ledger α × ρ) :
    EStateM (LotteryError α ω) (Lottery α ω γ) ρ :=
  modifyGet fun l =>
    let (ledger, reply) := f (l.tree.node leaf).ledger
    (reply, l.withLedger leaf ledger)

def leafOf (client : String) : EStateM (LotteryError α ω) (Lottery α ω γ) NodeId := do
  match (← get).tree.client? client with
  | none => throw (.client (.unknown client))
  | some leaf => return leaf

def require (client agent : String) (verdict : Except (LedgerFault α) Unit) :
    EStateM (LotteryError α ω) (Lottery α ω γ) Unit :=
  match verdict with
  | .error fault => throw (.ledger client agent fault)
  | .ok () => pure ()

variable [Amount α] [Weight ω]

def add (client : String) : EStateM (LotteryError α ω) (Lottery α ω γ) Unit := do
  onTree (addClient client)
  modify fun l => l.markDirty

def remove (client : String) : EStateM (LotteryError α ω) (Lottery α ω γ) Unit := do
  let ledger ← onTree (removeClient client)
  modify fun l => { l with total := l.total - ledger.totals }
  modify fun l => l.markDirty

def setActivity (client : String) (active : Bool) :
    EStateM (LotteryError α ω) (Lottery α ω γ) Unit := do
  if ← onTree (setClientActivity client active) then
    modify fun l => l.markDirty

def setWeight (path : String) (weight : ω) :
    EStateM (LotteryError α ω) (Lottery α ω γ) Unit := do
  match RolePath.split path with
  | .error fault => throw (.client (.invalidPath path fault))
  | .ok _ =>
    if !Weight.isFinite weight || Weight.lt weight Weight.zero then
      throw (.invalidWeight path weight)
    modify fun l => { l with weights := l.weights.insert path weight }
    if let some id := (← get).tree.find? path then
      modify fun l => { l with tree := l.tree.forgetWeights id }
    modify fun l => l.markDirty

def allocate (client agent : String) (bundle : Bundle α) :
    EStateM (LotteryError α ω) (Lottery α ω γ) Unit := do
  let leaf ← leafOf client
  let added ← onLedger leaf fun ledger => ledger.add agent bundle
  modify fun l => { l with total := l.total + added }

def replace (client agent : String) (old new : Bundle α) :
    EStateM (LotteryError α ω) (Lottery α ω γ) Unit := do
  let leaf ← leafOf client
  require client agent (((← get).tree.node leaf).ledger.checkReplace agent old)
  let (removed, added) ← onLedger leaf fun ledger => ledger.replace agent old new
  modify fun l => { l with total := l.total - removed }
  modify fun l => { l with total := l.total + added }

def release (client agent : String) (bundle : Bundle α) :
    EStateM (LotteryError α ω) (Lottery α ω γ) Unit := do
  let leaf ← leafOf client
  require client agent (((← get).tree.node leaf).ledger.checkRelease agent bundle)
  let removed ← onLedger leaf fun ledger => ledger.release agent bundle
  modify fun l => { l with total := l.total - removed }

omit [Amount α] [Weight ω] in
theorem run_onTree {act : EStateM ClientFault (RoleTree α ω) ρ}
    {f : RoleTree α ω → Except ClientFault (ρ × RoleTree α ω)} (h : Does act f)
    (l : Lottery α ω γ) :
    (onTree act).run l = match f l.tree with
      | .ok (reply, t) => .ok reply { l with tree := t }
      | .error fault => .error (.client fault) l := by
  have hrun : (onTree act : EStateM (LotteryError α ω) (Lottery α ω γ) ρ).run l =
      match act.run l.tree with
      | .ok reply t => .ok reply { l with tree := t }
      | .error fault t => .error (.client fault) { l with tree := t } := rfl
  rw [hrun, h l.tree]
  cases f l.tree with
  | error fault => rfl
  | ok r => rfl

omit [Amount α] [Weight ω] in
theorem run_leafOf (client : String) (l : Lottery α ω γ) :
    (leafOf client).run l = match l.tree.client? client with
      | none => .error (.client (.unknown client)) l
      | some leaf => .ok leaf l := by
  unfold leafOf
  simp only [EStateM.run_bind, EStateM.run_get]
  cases l.tree.client? client with
  | none => rfl
  | some leaf => rfl

omit [Amount α] [Weight ω] in
theorem does_add (client : String) :
    Does (add client : EStateM (LotteryError α ω) (Lottery α ω γ) Unit)
      fun l => (l.add client).map ((), ·) := by
  intro l
  dsimp only
  unfold add Lottery.add
  rw [EStateM.run_bind, run_onTree (does_addClient client)]
  cases l.tree.add client with
  | error fault => rfl
  | ok t => rfl

omit [Weight ω] in
theorem does_remove (client : String) :
    Does (remove client : EStateM (LotteryError α ω) (Lottery α ω γ) Unit)
      fun l => (l.remove client).map ((), ·) := by
  intro l
  dsimp only
  unfold remove Lottery.remove
  rw [EStateM.run_bind, run_onTree (does_removeClient client)]
  cases l.tree.remove client with
  | error fault => rfl
  | ok removed => rfl

omit [Amount α] [Weight ω] in
theorem does_setActivity (client : String) (active : Bool) :
    Does (setActivity client active : EStateM (LotteryError α ω) (Lottery α ω γ) Unit)
      fun l => (l.setActivity client active).map ((), ·) := by
  intro l
  dsimp only
  unfold setActivity Lottery.setActivity
  rw [EStateM.run_bind, run_onTree (does_setClientActivity client active)]
  cases ht : l.tree.setActivity client active with
  | error fault => rfl
  | ok result =>
    obtain ⟨t, changed⟩ := result
    cases changed with
    | true => rfl
    | false =>
      obtain rfl := RoleTree.eq_of_setActivity ht
      rfl

omit [Amount α] in
theorem does_setWeight (path : String) (weight : ω) :
    Does (setWeight path weight : EStateM (LotteryError α ω) (Lottery α ω γ) Unit)
      fun l => (l.setWeight path weight).map ((), ·) := by
  intro l
  dsimp only
  unfold setWeight Lottery.setWeight
  cases RolePath.split path with
  | error fault => rfl
  | ok names =>
    dsimp only
    split
    · rfl
    · simp only [EStateM.run_bind, EStateM.run_modify, EStateM.run_get]
      cases l.tree.find? path with
      | none => rfl
      | some id => rfl

omit [Weight ω] in
theorem does_allocate (client agent : String) (bundle : Bundle α) :
    Does (allocate client agent bundle : EStateM (LotteryError α ω) (Lottery α ω γ) Unit)
      fun l => (l.allocate client agent bundle).map ((), ·) := by
  intro l
  dsimp only
  unfold allocate Lottery.allocate
  rw [EStateM.run_bind, run_leafOf]
  cases l.tree.client? client with
  | none => rfl
  | some leaf => rfl

omit [Weight ω] in
theorem does_release (client agent : String) (bundle : Bundle α) :
    Does (release client agent bundle : EStateM (LotteryError α ω) (Lottery α ω γ) Unit)
      fun l => (l.release client agent bundle).map ((), ·) := by
  intro l
  dsimp only
  unfold release Lottery.release
  rw [EStateM.run_bind, run_leafOf]
  cases l.tree.client? client with
  | none => rfl
  | some leaf =>
    simp only [EStateM.run_bind, EStateM.run_get]
    cases (l.tree.node leaf).ledger.checkRelease agent bundle with
    | error fault => rfl
    | ok _ => rfl

omit [Weight ω] in
theorem does_replace (client agent : String) (old new : Bundle α) :
    Does (replace client agent old new : EStateM (LotteryError α ω) (Lottery α ω γ) Unit)
      fun l => (l.replace client agent old new).map ((), ·) := by
  intro l
  dsimp only
  unfold replace Lottery.replace
  rw [EStateM.run_bind, run_leafOf]
  cases l.tree.client? client with
  | none => rfl
  | some leaf =>
    simp only [EStateM.run_bind, EStateM.run_get]
    cases (l.tree.node leaf).ledger.checkReplace agent old with
    | error fault => rfl
    | ok _ => rfl

end Lottery

/-! ## Any call in place -/

section Call

def silently (act : EStateM ε σ Unit) : EStateM ε σ (List String) := do
  act
  return []

theorem does_silently {act : EStateM ε σ Unit} {f : σ → Except ε σ}
    (h : Does act fun s => (f s).map ((), ·)) :
    Does (silently act) fun s => Lottery.silent (f s) := by
  intro s
  unfold silently
  rw [EStateM.run_bind, h s]
  dsimp only
  cases f s with
  | error e => rfl
  | ok s' => rfl

variable [Amount α] [Weight ω] [RaceTime ω] [WordSource γ]

def perform : Call α ω → EStateM (LotteryError α ω) (Lottery α ω γ) (List String)
  | .add client => silently (add client)
  | .remove client => silently (remove client)
  | .activate client => silently (setActivity client true)
  | .deactivate client => silently (setActivity client false)
  | .setWeight path weight => silently (setWeight path weight)
  | .allocate client agent bundle => silently (allocate client agent bundle)
  | .release client agent bundle => silently (release client agent bundle)
  | .replace client agent old new => silently (replace client agent old new)
  | .addAgent agent capacity => silently (modify fun l => l.addAgent agent capacity)
  | .removeAgent agent => silently (modify fun l => l.removeAgent agent)
  | .exclude excluded => silently (modify fun l => l.exclude excluded)
  | .draw => modifyGet Lottery.draw

theorem does_perform (c : Call α ω) :
    Does (perform c : EStateM (LotteryError α ω) (Lottery α ω γ) (List String))
      fun l => l.attempt c := by
  cases c with
  | add client => exact does_silently (does_add client)
  | remove client => exact does_silently (does_remove client)
  | activate client => exact does_silently (does_setActivity client true)
  | deactivate client => exact does_silently (does_setActivity client false)
  | setWeight path weight => exact does_silently (does_setWeight path weight)
  | allocate client agent bundle => exact does_silently (does_allocate client agent bundle)
  | release client agent bundle => exact does_silently (does_release client agent bundle)
  | replace client agent old new => exact does_silently (does_replace client agent old new)
  | addAgent agent capacity => exact fun _ => rfl
  | removeAgent agent => exact fun _ => rfl
  | exclude excluded => exact fun _ => rfl
  | draw => exact fun _ => rfl

end Call

end InPlace

namespace Lottery

variable [Amount α] [Weight ω] [RaceTime ω] [WordSource γ]

/-- Any call in place, on any lottery, does what the call that returns a new lottery does. When it
fails, everything is as before, and it fails for the listed causes only. -/
theorem refused_without_trace (l : Lottery α ω γ) (c : Call α ω) :
    (∀ order l', (InPlace.perform c).run l = .ok order l' ↔ l.attempt c = .ok (order, l')) ∧
    (∀ e l', (InPlace.perform c).run l = .error e l' ↔ l.attempt c = .error e ∧ l' = l) ∧
    ∀ e, l.attempt c = .error e ↔ l.Refuses c e := by
  have hrun : (InPlace.perform c).run l = orElseSame l (l.attempt c) := InPlace.does_perform c l
  refine ⟨fun order l' => ?_, fun e l' => ?_, fun e => ⟨Refuses.of_attempt, Refuses.attempt⟩⟩
  · rw [hrun]
    cases l.attempt c <;> simp [orElseSame, Prod.ext_iff]
  · rw [hrun]
    cases l.attempt c <;> simp [orElseSame, eq_comm (b := l')]

end Lottery

end RoleLottery
