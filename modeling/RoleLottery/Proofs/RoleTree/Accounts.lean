import RoleLottery.Proofs.Table
import RoleLottery.Proofs.RoleTree.Sound

/-!
# Accounts

What a tree says of a client: whether it is active, and what it holds. Where its leaf stands, and in
which slot, does not matter.
-/

namespace RoleLottery

structure Account (α : Type) where
  active : Bool
  ledger : Ledger α

namespace RoleTree

variable {α ω : Type} {t t' : RoleTree α ω} {x p c : NodeId}

def accountAt (t : RoleTree α ω) (leaf : NodeId) : Account α :=
  ⟨(t.node leaf).kind = .active, (t.node leaf).ledger⟩

def account? (t : RoleTree α ω) (client : String) : Option (Account α) :=
  (t.client? client).map t.accountAt

theorem account?_eq_none_iff {client : String} :
    t.account? client = none ↔ t.client? client = none :=
  Option.map_eq_none_iff

theorem account?_eq_some_iff {client : String} {a : Account α} :
    t.account? client = some a ↔ ∃ leaf, t.client? client = some leaf ∧ t.accountAt leaf = a :=
  Option.map_eq_some_iff

theorem accountAt_congr {y : NodeId} (hkind : (t'.node y).kind = (t.node x).kind)
    (hledger : (t'.node y).ledger = (t.node x).ledger) : t'.accountAt y = t.accountAt x := by
  simp [accountAt, hkind, hledger]

/-- Clients that keep their leaves, with kinds and holdings, keep their accounts. -/
theorem account?_congr {client : String} (hclient : t'.client? client = t.client? client)
    (hkind : ∀ id, t.client? client = some id → (t'.node id).kind = (t.node id).kind)
    (hledger : ∀ id, t.client? client = some id → (t'.node id).ledger = (t.node id).ledger) :
    t'.account? client = t.account? client := by
  unfold account?
  rw [hclient]
  cases hc : t.client? client with
  | none => rfl
  | some id => exact congrArg some (accountAt_congr (hkind id hc) (hledger id hc))

theorem Keeps.account? (hr : t.Registered []) (s : Keeps t t') (client : String) :
    t'.account? client = t.account? client :=
  account?_congr (client?_congr s.clients client)
    (fun id hc => s.kind ((hr client id).mp hc).1)
    (fun id hc => s.ledger ((hr client id).mp hc).1)

theorem Drops.account? (hr : t.Registered [x]) (s : Drops t x t') (client : String) :
    t'.account? client = t.account? client := by
  have hne {id : NodeId} (hc : t.client? client = some id) : id ≠ x := by
    simpa using ((hr client id).mp hc).2.1
  exact account?_congr (client?_congr s.clients client)
    (fun id hc => by rw [s.node (hne hc)]) (fun id hc => by rw [s.node (hne hc)])

theorem Turns.account? {kind : NodeKind} {ledger : Ledger α} (hr : t.Registered [])
    (s : Turns t x kind ledger t') {client : String} (hx : t.client? client = some x)
    (other : String) :
    t'.account? other =
      if client = other then some ⟨kind = .active, ledger⟩ else t.account? other := by
  split
  · rename_i hclient
    subst hclient
    simp [RoleTree.account?, client?_congr s.clients, hx, accountAt, s.self]
  · rename_i hclient
    have hne {id : NodeId} (hc : t.client? other = some id) : id ≠ x :=
      hr.ne_of_client_ne hx hc hclient
    exact account?_congr (client?_congr s.clients other)
      (fun id hc => s.kind_ne (hne hc)) (fun id hc => s.ledger_ne (hne hc))

theorem Folds.account? {own : NodeId} (h : t.Linked []) (hr : t.Registered [])
    (hmem : own ∈ (t.node x).children) (hname : (t.node own).name = RolePath.ownLeaf)
    (s : Folds t x own t') (client : String) : t'.account? client = t.account? client := by
  obtain ⟨hownlive, -, hownparent, -⟩ := h.down hmem
  have hownclient := (hr (t.node x).path own).mpr ⟨hownlive, List.not_mem_nil,
    (h.own hownlive hname).1, clientOf_of_parent hownparent hname⟩
  by_cases hc : (t.node x).path = client
  · subst hc
    have hclient : t'.client? (t.node x).path = some x := by
      simp [client?, s.clients]
    simp [RoleTree.account?, hclient, hownclient, accountAt, s.self]
  · have hclient : t'.client? client = t.client? client := by
      simp [client?, s.clients, hc]
    have hne {id : NodeId} (hid : t.client? client = some id) : id ≠ x ∧ id ≠ own := by
      obtain ⟨-, -, hleaf, hidclient⟩ := (hr client id).mp hid
      constructor
      · exact ne_of_isLeaf hleaf (h.kind_of_child hmem)
      · intro he
        subst he
        rw [clientOf_of_parent hownparent hname] at hidclient
        exact hc hidclient
    refine account?_congr hclient (fun id hid => ?_) (fun id hid => ?_)
    all_goals
      obtain ⟨hidx, hidown⟩ := hne hid
      obtain ⟨_, -, hnode⟩ := s.other hidx hidown
      rw [hnode]

end RoleTree

end RoleLottery
