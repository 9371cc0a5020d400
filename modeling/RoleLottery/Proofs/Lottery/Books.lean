import RoleLottery.Proofs.Lottery.Accounts

/-!
# The books of a lottery

What the calls of a run do to the accounts of the clients and to the total of all. Whatever every
posting keeps holds in every state of a run.
-/

namespace RoleLottery

variable {α ω γ : Type}

/-- A call that no account shows. -/
def Call.IsIdle : Call α ω → Prop
  | .setWeight _ _ => True
  | .addAgent _ _ => True
  | .removeAgent _ => True
  | .exclude _ => True
  | .draw => True
  | _ => False

/-- What a call that succeeds does to the accounts and the total. -/
inductive Posting [Amount α] :
    Call α ω → Accounts α × Quantities α → Accounts α × Quantities α → Prop
  | idle {c : Call α ω} {a : Accounts α} {q : Quantities α} : c.IsIdle → Posting c (a, q) (a, q)
  | add {client : String} {a : Accounts α} {q : Quantities α} : a.get? client = none →
    Posting (.add client) (a, q) (a.insert client ⟨false, {}⟩, q)
  | remove {client : String} {account : Account α} {a : Accounts α} {q : Quantities α} :
    a.get? client = some account →
    Posting (.remove client) (a, q) (a.erase client, q - account.ledger.totals)
  | activate {client : String} {account : Account α} {a : Accounts α} {q : Quantities α} :
    a.get? client = some account →
    Posting (.activate client) (a, q) (a.insert client ⟨true, account.ledger⟩, q)
  | deactivate {client : String} {account : Account α} {a : Accounts α} {q : Quantities α} :
    a.get? client = some account →
    Posting (.deactivate client) (a, q) (a.insert client ⟨false, account.ledger⟩, q)
  | allocate {client agent : String} {bundle : Bundle α} {account : Account α} {a : Accounts α}
    {q : Quantities α} : a.get? client = some account →
    Posting (.allocate client agent bundle) (a, q)
      (a.insert client ⟨account.active, (account.ledger.add agent bundle).1⟩,
        q + (account.ledger.add agent bundle).2)
  | release {client agent : String} {bundle : Bundle α} {account : Account α} {a : Accounts α}
    {q : Quantities α} : a.get? client = some account →
    account.ledger.checkRelease agent bundle = .ok () →
    Posting (.release client agent bundle) (a, q)
      (a.insert client ⟨account.active, (account.ledger.release agent bundle).1⟩,
        q - (account.ledger.release agent bundle).2)
  | replace {client agent : String} {old new : Bundle α} {account : Account α} {a : Accounts α}
    {q : Quantities α} : a.get? client = some account →
    account.ledger.checkReplace agent old = .ok () →
    Posting (.replace client agent old new) (a, q)
      (a.insert client ⟨account.active, (account.ledger.replace agent old new).1⟩,
        q - (account.ledger.replace agent old new).2.1 +
          (account.ledger.replace agent old new).2.2)

theorem Accounts.withAccount_eq_ok {β : Type} {a : Accounts α} {client : String}
    {f : Account α → Except (LotteryError α ω) β} {b : β} (h : a.withAccount client f = .ok b) :
    ∃ account, a.get? client = some account ∧ f account = .ok b := by
  unfold withAccount at h
  cases haccount : a.get? client with
  | none => simp [haccount] at h
  | some account => exact ⟨account, rfl, by simpa [haccount] using h⟩

namespace Lottery

variable {l l' : Lottery α ω γ} {a a' : Accounts α} {client agent : String}
  {bundle old new : Bundle α}

theorem total_setActivity {active : Bool} (hl : l.setActivity client active = .ok l') :
    l'.total = l.total := by
  unfold setActivity at hl
  split at hl <;> cases hl <;> rfl

/-! ## Ledger calls -/

namespace Tracks

theorem get?_of_client? (h : Tracks l a) {leaf : NodeId}
    (hleaf : l.tree.client? client = some leaf) :
    a.get? client = some (l.tree.accountAt leaf) := by
  rw [← h.account?, RoleTree.account?, hleaf, Option.map_some]

variable [Amount α]

theorem posting_allocate (h : Tracks l a) (hl : l.allocate client agent bundle = .ok l') :
    ∃ a', Tracks l' a' ∧
      Posting (.allocate client agent bundle : Call α ω) (a, l.total) (a', l'.total) := by
  unfold Lottery.allocate at hl
  split at hl
  · cases hl
  · rename_i leaf hleaf
    cases hl
    exact ⟨_, h.withLedger hleaf _ rfl, .allocate (h.get?_of_client? hleaf)⟩

theorem posting_release (h : Tracks l a) (hl : l.release client agent bundle = .ok l') :
    ∃ a', Tracks l' a' ∧
      Posting (.release client agent bundle : Call α ω) (a, l.total) (a', l'.total) := by
  unfold Lottery.release at hl
  split at hl
  · cases hl
  · rename_i leaf hleaf
    split at hl
    · cases hl
    · rename_i hcheck
      cases hl
      exact ⟨_, h.withLedger hleaf _ rfl, .release (h.get?_of_client? hleaf) hcheck⟩

theorem posting_replace (h : Tracks l a) (hl : l.replace client agent old new = .ok l') :
    ∃ a', Tracks l' a' ∧
      Posting (.replace client agent old new : Call α ω) (a, l.total) (a', l'.total) := by
  unfold Lottery.replace at hl
  split at hl
  · cases hl
  · rename_i leaf hleaf
    split at hl
    · cases hl
    · rename_i hcheck
      cases hl
      exact ⟨_, h.withLedger hleaf _ rfl, .replace (h.get?_of_client? hleaf) hcheck⟩

end Tracks

/-! ## Any call -/

variable [Amount α] [Weight ω] [RaceTime ω] [WordSource γ] {c : Call α ω} {order : List String}

theorem Tracks.posting (h : Tracks l a) (hl : l.attempt c = .ok (order, l')) :
    ∃ a', Tracks l' a' ∧ Posting c (a, l.total) (a', l'.total) := by
  have hagree := h.attempt c
  rw [hl] at hagree
  generalize ha : a.attempt c = flat at hagree
  cases hagree with
  | ok htracks =>
    rename_i a'
    cases c with
    | add client =>
      refine ⟨a', htracks, ?_⟩
      have htotal : l'.total = l.total := by
        have hadd := eq_of_silent hl
        unfold Lottery.add at hadd
        split at hadd <;> cases hadd
        rfl
      simp only [Accounts.attempt] at ha
      split at ha
      · cases ha
      · split at ha
        · cases ha
        · rename_i hnew
          cases ha
          rw [htotal]
          exact .add (by simpa [Table.contains] using hnew)
    | remove client =>
      refine ⟨a', htracks, ?_⟩
      obtain ⟨account, haccount, ha⟩ := Accounts.withAccount_eq_ok ha
      obtain ⟨t, ht, -, -⟩ := h.sound.remove_eq_ok ((h.account? client).trans haccount)
      have hremove := eq_of_silent hl
      unfold Lottery.remove at hremove
      rw [ht] at hremove
      cases hremove
      cases ha
      exact .remove haccount
    | activate client =>
      refine ⟨a', htracks, ?_⟩
      obtain ⟨account, haccount, ha⟩ := Accounts.withAccount_eq_ok ha
      cases ha
      rw [total_setActivity (eq_of_silent hl)]
      exact .activate haccount
    | deactivate client =>
      refine ⟨a', htracks, ?_⟩
      obtain ⟨account, haccount, ha⟩ := Accounts.withAccount_eq_ok ha
      cases ha
      rw [total_setActivity (eq_of_silent hl)]
      exact .deactivate haccount
    | setWeight path weight =>
      refine ⟨a', htracks, ?_⟩
      have htotal : l'.total = l.total := by
        have hset := eq_of_silent hl
        unfold Lottery.setWeight at hset
        split at hset
        · cases hset
        · split at hset <;> cases hset
          rfl
      simp only [Accounts.attempt] at ha
      split at ha
      · cases ha
      · split at ha <;> cases ha
        rw [htotal]
        exact .idle trivial
    | allocate client agent bundle => exact h.posting_allocate (eq_of_silent hl)
    | release client agent bundle => exact h.posting_release (eq_of_silent hl)
    | replace client agent old new => exact h.posting_replace (eq_of_silent hl)
    | addAgent agent capacity =>
      cases ha
      cases hl
      exact ⟨a, htracks, .idle trivial⟩
    | removeAgent agent =>
      cases ha
      cases hl
      exact ⟨a, htracks, .idle trivial⟩
    | exclude excluded =>
      cases ha
      cases hl
      exact ⟨a, htracks, .idle trivial⟩
    | draw =>
      cases ha
      cases hl
      exact ⟨a, htracks, .idle trivial⟩

/-- What every posting keeps holds after a run. -/
theorem books_after {P : Accounts α × Quantities α → Prop} (settings : Settings) (g : γ)
    (calls : List (Call α ω)) (hstart : P ({}, {}))
    (hstep : ∀ c ∈ calls, ∀ b b', P b → Posting c b b' → P b') :
    ∃ a, Tracks (after settings g calls) a ∧ P (a, (after settings g calls).total) := by
  refine run_keeps (P := fun l : Lottery α ω γ => ∃ a, Tracks l a ∧ P (a, l.total)) ?_
    ⟨{}, .start settings g, hstart⟩
  rintro c hc l order l' ⟨a, htracks, h⟩ hl
  obtain ⟨a', htracks', hposting⟩ := htracks.posting hl
  exact ⟨a', htracks', hstep c hc _ _ h hposting⟩

end Lottery

/-! ## One ledger -/

section Ledger

variable {c : Call α ω} {b b' : Accounts α × Quantities α} {client : String} {P : Ledger α → Prop}

theorem Posting.ledger [Amount α] (p : Posting c b b') (hempty : P {})
    (hadd : ∀ agent bundle, c = .allocate client agent bundle → ∀ l, P l → P (l.add agent bundle).1)
    (hrelease : ∀ agent bundle, c = .release client agent bundle → ∀ l, P l →
      l.checkRelease agent bundle = .ok () → P (l.release agent bundle).1)
    (hreplace : ∀ agent old new, c = .replace client agent old new → ∀ l, P l →
      l.checkReplace agent old = .ok () → P (l.replace agent old new).1)
    (h : ∀ account, b.1.get? client = some account → P account.ledger) :
    ∀ account, b'.1.get? client = some account → P account.ledger := by
  have hinsert {a : Accounts α} {other : String} {new : Account α}
      (h : ∀ account, a.get? client = some account → P account.ledger)
      (hnew : other = client → P new.ledger) :
      ∀ account, (a.insert other new).get? client = some account → P account.ledger := by
    intro account haccount
    rw [Table.get?_insert] at haccount
    split at haccount
    · rename_i hother
      rw [← Option.some.inj haccount]
      exact hnew hother
    · exact h account haccount
  cases p with
  | idle _ => exact h
  | add _ => exact hinsert h fun _ => hempty
  | remove _ =>
    intro account haccount
    rw [Table.get?_erase] at haccount
    split at haccount
    · exact absurd haccount (by simp)
    · exact h account haccount
  | activate hold =>
    refine hinsert h ?_
    rintro rfl
    have hsame := h _ hold
    exact hsame
  | deactivate hold =>
    refine hinsert h ?_
    rintro rfl
    have hsame := h _ hold
    exact hsame
  | allocate hold =>
    refine hinsert h ?_
    rintro rfl
    exact hadd _ _ rfl _ (h _ hold)
  | release hold hcheck =>
    refine hinsert h ?_
    rintro rfl
    exact hrelease _ _ rfl _ (h _ hold) hcheck
  | replace hold hcheck =>
    refine hinsert h ?_
    rintro rfl
    exact hreplace _ _ _ rfl _ (h _ hold) hcheck

end Ledger

/-- What an empty ledger has and what the ledger calls of a run keep, the ledger of a client has
after the run. -/
theorem Lottery.ledger_after [Amount α] [Weight ω] [RaceTime ω] [WordSource γ]
    {P : Ledger α → Prop} (settings : Settings) (g : γ) {calls : List (Call α ω)} {client : String}
    (hempty : P {})
    (hadd : ∀ agent bundle, .allocate client agent bundle ∈ calls →
      ∀ l, P l → P (l.add agent bundle).1)
    (hrelease : ∀ agent bundle, .release client agent bundle ∈ calls → ∀ l, P l →
      l.checkRelease agent bundle = .ok () → P (l.release agent bundle).1)
    (hreplace : ∀ agent old new, .replace client agent old new ∈ calls → ∀ l, P l →
      l.checkReplace agent old = .ok () → P (l.replace agent old new).1) :
    P ((after settings g calls).ledger client) := by
  obtain ⟨a, htracks, h⟩ := books_after settings g calls
    (P := fun b => ∀ account, b.1.get? client = some account → P account.ledger)
    (fun account h => absurd h (by simp)) fun c hc b b' h hposting => by
      refine hposting.ledger hempty ?_ ?_ ?_ h
      · rintro agent bundle rfl
        exact hadd agent bundle hc
      · rintro agent bundle rfl
        exact hrelease agent bundle hc
      · rintro agent old new rfl
        exact hreplace agent old new hc
  rw [htracks.ledger, Accounts.ledger]
  cases haccount : a.get? client with
  | none => exact hempty
  | some account => exact h account haccount

end RoleLottery
