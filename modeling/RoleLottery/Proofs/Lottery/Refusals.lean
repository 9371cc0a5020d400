import RoleLottery.Proofs.Ledger
import RoleLottery.Proofs.Lottery.Calls
import RoleLottery.Proofs.RolePath

/-!
# Refusals

Why a call fails, for every call. The causes of one call exclude each other: each is the first of
the checks that the call does not pass.
-/

namespace RoleLottery

variable {α ω γ ε σ : Type}

/-- The client that a call cannot do without. -/
def Call.client? : Call α ω → Option String
  | .remove client => some client
  | .activate client => some client
  | .deactivate client => some client
  | .allocate client _ _ => some client
  | .release client _ _ => some client
  | .replace client _ _ _ => some client
  | _ => none

def Call.taken? : Call α ω → Option (String × String × Bundle α)
  | .release client agent bundle => some (client, agent, bundle)
  | .replace client agent old _ => some (client, agent, old)
  | _ => none

namespace Lottery

variable [Amount α] [Weight ω] {l : Lottery α ω γ} {client agent : String} {bundle : Bundle α}
  {c : Call α ω} {e : LotteryError α ω}

/-- Why a lottery refuses a call. No call has two of these causes. -/
inductive Refuses (l : Lottery α ω γ) : Call α ω → LotteryError α ω → Prop
  | invalidClient {client : String} {fault : RolePath.Fault} : RolePath.Faulty client fault →
    Refuses l (.add client) (.client (.invalidPath client fault))
  | alreadyPresent {client : String} : (∀ fault, ¬RolePath.Faulty client fault) →
    l.contains client = true → Refuses l (.add client) (.client (.alreadyPresent client))
  | invalidPath {path : String} {weight : ω} {fault : RolePath.Fault} :
    RolePath.Faulty path fault →
    Refuses l (.setWeight path weight) (.client (.invalidPath path fault))
  | invalidWeight {path : String} {weight : ω} : (∀ fault, ¬RolePath.Faulty path fault) →
    Weight.isFinite weight = false ∨ Weight.lt weight Weight.zero = true →
    Refuses l (.setWeight path weight) (.invalidWeight path weight)
  | unknown {c : Call α ω} {client : String} : c.client? = some client →
    l.contains client = false → Refuses l c (.client (.unknown client))
  | nothingHeld {c : Call α ω} {client agent : String} {bundle : Bundle α} :
    c.taken? = some (client, agent, bundle) → l.contains client = true →
    (l.allocation client).get? agent = none → Refuses l c (.ledger client agent .nothingHeld)
  | insufficientHoldings {c : Call α ω} {client agent : String} {bundle held : Bundle α} :
    c.taken? = some (client, agent, bundle) → l.contains client = true →
    (l.allocation client).get? agent = some held → held.contains bundle = false →
    Refuses l c (.ledger client agent (.insufficientHoldings held bundle))
  | insufficientTotals {client agent : String} {old new held : Bundle α} :
    l.contains client = true → (l.allocation client).get? agent = some held →
    held.contains old = true →
    (l.totals client).contains (Quantities.ofBundle old.scalars) = false →
    Refuses l (.replace client agent old new)
      (.ledger client agent
        (.insufficientTotals (l.totals client) (Quantities.ofBundle old.scalars)))

omit [Amount α] [Weight ω] in
theorem contains_eq_true_iff :
    l.contains client = true ↔ ∃ leaf, l.tree.client? client = some leaf :=
  Option.isSome_iff_exists

omit [Amount α] [Weight ω] in
theorem contains_eq_false_iff : l.contains client = false ↔ l.tree.client? client = none :=
  Option.isSome_eq_false_iff.trans Option.isNone_iff_eq_none

omit [Amount α] [Weight ω] in
theorem contains_of_client?_eq_some {leaf : NodeId} (h : l.tree.client? client = some leaf) :
    l.contains client = true :=
  contains_eq_true_iff.mpr ⟨leaf, h⟩

omit [Amount α] [Weight ω] in
theorem ledger_of_client?_eq_some {leaf : NodeId} (h : l.tree.client? client = some leaf) :
    l.ledger client = (l.tree.node leaf).ledger := by
  rw [ledger, h]

theorem silent_eq_error_iff {r : Except ε σ} {f : ε} : silent r = .error f ↔ r = .error f := by
  cases r <;> simp [silent, Except.map]

omit [Amount α] [Weight ω] in
theorem add_refused_iff : l.add client = .error e ↔
    (∃ fault, RolePath.Faulty client fault ∧ e = .client (.invalidPath client fault)) ∨
    (∀ fault, ¬RolePath.Faulty client fault) ∧ l.contains client = true ∧
      e = .client (.alreadyPresent client) := by
  unfold add RoleTree.add contains
  simp only [← RolePath.split_eq_error_iff]
  cases RolePath.split client with
  | error fault => simp [eq_comm (b := e)]
  | ok names => cases l.tree.clients.contains client <;> simp [eq_comm (b := e)]

omit [Amount α] in
theorem setWeight_refused_iff {path : String} {weight : ω} : l.setWeight path weight = .error e ↔
    (∃ fault, RolePath.Faulty path fault ∧ e = .client (.invalidPath path fault)) ∨
    (∀ fault, ¬RolePath.Faulty path fault) ∧
      (Weight.isFinite weight = false ∨ Weight.lt weight Weight.zero = true) ∧
      e = .invalidWeight path weight := by
  unfold setWeight
  simp only [← RolePath.split_eq_error_iff]
  cases RolePath.split path with
  | error fault => simp [eq_comm (b := e)]
  | ok names =>
    cases Weight.isFinite weight with
    | false => simp [eq_comm (b := e)]
    | true => cases Weight.lt weight Weight.zero <;> simp [eq_comm (b := e)]

omit [Weight ω] in
theorem remove_refused_iff : l.remove client = .error e ↔
    l.contains client = false ∧ e = .client (.unknown client) := by
  rw [contains_eq_false_iff, remove, RoleTree.remove]
  cases l.tree.client? client with
  | none => simp [eq_comm (b := e)]
  | some leaf => simp

omit [Amount α] [Weight ω] in
theorem setActivity_refused_iff {active : Bool} : l.setActivity client active = .error e ↔
    l.contains client = false ∧ e = .client (.unknown client) := by
  rw [contains_eq_false_iff, setActivity, RoleTree.setActivity]
  cases l.tree.client? client with
  | none => simp [eq_comm (b := e)]
  | some leaf =>
    dsimp only
    generalize (if active then NodeKind.active else .inactive) = kind
    by_cases hkind : (l.tree.node leaf).kind = kind <;> simp [hkind]

omit [Weight ω] in
theorem allocate_refused_iff : l.allocate client agent bundle = .error e ↔
    l.contains client = false ∧ e = .client (.unknown client) := by
  rw [contains_eq_false_iff, allocate]
  cases l.tree.client? client with
  | none => simp [eq_comm (b := e)]
  | some leaf => simp

omit [Weight ω] in
theorem release_refused_iff : l.release client agent bundle = .error e ↔
    l.contains client = false ∧ e = .client (.unknown client) ∨
    l.contains client = true ∧ ∃ fault,
      (l.ledger client).checkRelease agent bundle = .error fault ∧
      e = .ledger client agent fault := by
  cases hleaf : l.tree.client? client with
  | none => simp [release, contains_eq_false_iff.mpr hleaf, hleaf, eq_comm (b := e)]
  | some leaf =>
    rw [release, hleaf, contains_of_client?_eq_some hleaf, ledger_of_client?_eq_some hleaf]
    dsimp only
    cases (l.tree.node leaf).ledger.checkRelease agent bundle <;> simp [eq_comm (b := e)]

omit [Weight ω] in
theorem replace_refused_iff {old new : Bundle α} : l.replace client agent old new = .error e ↔
    l.contains client = false ∧ e = .client (.unknown client) ∨
    l.contains client = true ∧ ∃ fault,
      (l.ledger client).checkReplace agent old = .error fault ∧
      e = .ledger client agent fault := by
  cases hleaf : l.tree.client? client with
  | none => simp [replace, contains_eq_false_iff.mpr hleaf, hleaf, eq_comm (b := e)]
  | some leaf =>
    rw [replace, hleaf, contains_of_client?_eq_some hleaf, ledger_of_client?_eq_some hleaf]
    dsimp only
    cases (l.tree.node leaf).ledger.checkReplace agent old <;> simp [eq_comm (b := e)]

theorem Refuses.of_checkRelease {fault : LedgerFault α}
    (hc : c.taken? = some (client, agent, bundle)) (hclient : l.contains client = true)
    (hcheck : (l.ledger client).checkRelease agent bundle = .error fault) :
    l.Refuses c (.ledger client agent fault) := by
  rcases Ledger.checkRelease_eq_error_iff.mp hcheck with ⟨hheld, rfl⟩ | ⟨held, hheld, hless, rfl⟩
  · exact .nothingHeld hc hclient hheld
  · exact .insufficientHoldings hc hclient hheld hless

variable [RaceTime ω] [WordSource γ]

theorem Refuses.of_attempt (h : l.attempt c = .error e) : l.Refuses c e := by
  cases c with
  | add client =>
    rcases add_refused_iff.mp (silent_eq_error_iff.mp h) with
      ⟨fault, hfault, rfl⟩ | ⟨hvalid, hclient, rfl⟩
    · exact .invalidClient hfault
    · exact .alreadyPresent hvalid hclient
  | remove client =>
    obtain ⟨hclient, rfl⟩ := remove_refused_iff.mp (silent_eq_error_iff.mp h)
    exact .unknown rfl hclient
  | activate client =>
    obtain ⟨hclient, rfl⟩ := setActivity_refused_iff.mp (silent_eq_error_iff.mp h)
    exact .unknown rfl hclient
  | deactivate client =>
    obtain ⟨hclient, rfl⟩ := setActivity_refused_iff.mp (silent_eq_error_iff.mp h)
    exact .unknown rfl hclient
  | setWeight path weight =>
    rcases setWeight_refused_iff.mp (silent_eq_error_iff.mp h) with
      ⟨fault, hfault, rfl⟩ | ⟨hvalid, hweight, rfl⟩
    · exact .invalidPath hfault
    · exact .invalidWeight hvalid hweight
  | allocate client agent bundle =>
    obtain ⟨hclient, rfl⟩ := allocate_refused_iff.mp (silent_eq_error_iff.mp h)
    exact .unknown rfl hclient
  | release client agent bundle =>
    rcases release_refused_iff.mp (silent_eq_error_iff.mp h) with
      ⟨hclient, rfl⟩ | ⟨hclient, fault, hcheck, rfl⟩
    · exact .unknown rfl hclient
    · exact .of_checkRelease rfl hclient hcheck
  | replace client agent old new =>
    rcases replace_refused_iff.mp (silent_eq_error_iff.mp h) with
      ⟨hclient, rfl⟩ | ⟨hclient, fault, hcheck, rfl⟩
    · exact .unknown rfl hclient
    · rcases Ledger.checkReplace_eq_error_iff.mp hcheck with hrelease | ⟨hrelease, htotals, rfl⟩
      · exact .of_checkRelease rfl hclient hrelease
      · obtain ⟨held, hheld, hcontains⟩ := Ledger.checkRelease_eq_ok_iff.mp hrelease
        exact .insufficientTotals hclient hheld hcontains htotals
  | addAgent agent capacity => cases h
  | removeAgent agent => cases h
  | exclude excluded => cases h
  | draw => cases h

theorem attempt_of_checkRelease {fault : LedgerFault α}
    (hc : c.taken? = some (client, agent, bundle)) (hclient : l.contains client = true)
    (hcheck : (l.ledger client).checkRelease agent bundle = .error fault) :
    l.attempt c = .error (.ledger client agent fault) := by
  cases c <;> cases hc
  case release =>
    exact silent_eq_error_iff.mpr (release_refused_iff.mpr (.inr ⟨hclient, fault, hcheck, rfl⟩))
  case replace new =>
    have hcheck := Ledger.checkReplace_eq_error_iff.mpr (.inl hcheck)
    exact silent_eq_error_iff.mpr (replace_refused_iff.mpr (.inr ⟨hclient, fault, hcheck, rfl⟩))

theorem attempt_of_unknown (hc : c.client? = some client) (hclient : l.contains client = false) :
    l.attempt c = .error (.client (.unknown client)) := by
  cases c <;> cases hc
  case remove => exact silent_eq_error_iff.mpr (remove_refused_iff.mpr ⟨hclient, rfl⟩)
  case activate => exact silent_eq_error_iff.mpr (setActivity_refused_iff.mpr ⟨hclient, rfl⟩)
  case deactivate => exact silent_eq_error_iff.mpr (setActivity_refused_iff.mpr ⟨hclient, rfl⟩)
  case allocate => exact silent_eq_error_iff.mpr (allocate_refused_iff.mpr ⟨hclient, rfl⟩)
  case release => exact silent_eq_error_iff.mpr (release_refused_iff.mpr (.inl ⟨hclient, rfl⟩))
  case replace => exact silent_eq_error_iff.mpr (replace_refused_iff.mpr (.inl ⟨hclient, rfl⟩))

theorem Refuses.attempt (h : l.Refuses c e) : l.attempt c = .error e := by
  cases h with
  | invalidClient hfault =>
    exact silent_eq_error_iff.mpr (add_refused_iff.mpr (.inl ⟨_, hfault, rfl⟩))
  | alreadyPresent hvalid hclient =>
    exact silent_eq_error_iff.mpr (add_refused_iff.mpr (.inr ⟨hvalid, hclient, rfl⟩))
  | invalidPath hfault =>
    exact silent_eq_error_iff.mpr (setWeight_refused_iff.mpr (.inl ⟨_, hfault, rfl⟩))
  | invalidWeight hvalid hweight =>
    exact silent_eq_error_iff.mpr (setWeight_refused_iff.mpr (.inr ⟨hvalid, hweight, rfl⟩))
  | unknown hc hclient => exact attempt_of_unknown hc hclient
  | nothingHeld hc hclient hheld =>
    refine attempt_of_checkRelease hc hclient ?_
    exact Ledger.checkRelease_eq_error_iff.mpr (.inl ⟨hheld, rfl⟩)
  | insufficientHoldings hc hclient hheld hless =>
    refine attempt_of_checkRelease hc hclient ?_
    exact Ledger.checkRelease_eq_error_iff.mpr (.inr ⟨_, hheld, hless, rfl⟩)
  | insufficientTotals hclient hheld hcontains htotals =>
    have hrelease := Ledger.checkRelease_eq_ok_iff.mpr ⟨_, hheld, hcontains⟩
    have hcheck := Ledger.checkReplace_eq_error_iff.mpr (.inr ⟨hrelease, htotals, rfl⟩)
    exact silent_eq_error_iff.mpr (replace_refused_iff.mpr (.inr ⟨hclient, _, hcheck, rfl⟩))

end Lottery

end RoleLottery
