import RoleLottery.Proofs.Ledger
import RoleLottery.Proofs.Lottery.Books

/-!
# The total of all clients

A release may take more from the total than the totals of its client have, since only the latter
stop at zero in time: the total of all then falls below the sum of the totals of the clients. That
takes a replacement which gives back a copy of a shared instance that is an amount. Nothing else
unbalances the books.
-/

namespace RoleLottery

/-! ## Sums over all accounts -/

namespace Accounts

def sumOfTotals (a : Accounts Int) (name : String) : Int :=
  (a.values.map fun account => account.ledger.totals.get name).sum

variable {a : Accounts Int} {client name : String} {account : Account Int}

theorem sumOfTotals_insert (haccount : a.get? client = some account) (new : Account Int)
    (name : String) :
    sumOfTotals (a.insert client new) name + account.ledger.totals.get name =
      a.sumOfTotals name + new.ledger.totals.get name := by
  have hsum := Table.sum_insert a client new fun account => account.ledger.totals.get name
  rwa [haccount, Option.map_some, Option.getD_some] at hsum

end Accounts

structure PositiveBooks (b : Accounts Int × Quantities Int) : Prop where
  total : b.2.Positive
  totals : ∀ client account, b.1.get? client = some account → account.ledger.totals.Positive

/-- The client whose totals are `own` gives `gone` and gets `come`. Its totals and the total of all
stop at zero, each for itself. -/
structure Flow (sum sum' total total' own gone come : Int) : Prop where
  own_nonneg : 0 ≤ own
  own_le : own ≤ sum
  gone_nonneg : 0 ≤ gone
  come_nonneg : 0 ≤ come
  sum_eq : sum' + own = sum + max (own - gone) 0 + come
  total_eq : total' = max (total - gone) 0 + come

namespace Flow

variable {sum sum' total total' own gone come : Int}

theorem still (hsum : 0 ≤ sum) (htotal : 0 ≤ total) (hsame : sum' = sum) :
    Flow sum sum' total total 0 0 0 := by
  constructor <;> omega

theorem total_le (h : Flow sum sum' total total' own gone come) (hle : total ≤ sum) :
    total' ≤ sum' := by
  obtain ⟨hown, hsum, hgone, hcome, hsum', htotal'⟩ := h
  omega

theorem balanced_iff (h : Flow sum sum' total total' own gone come) (heq : total = sum) :
    total' = sum' ↔ gone ≤ own ∨ sum = own := by
  obtain ⟨hown, hsum, hgone, hcome, hsum', htotal'⟩ := h
  omega

end Flow

/-! ## One posting -/

section Posting

variable {ω : Type} {c : Call Int ω} {b b' : Accounts Int × Quantities Int} {client name : String}
  {account : Account Int}

theorem PositiveBooks.own (h : PositiveBooks b) (haccount : b.1.get? client = some account)
    (name : String) : 0 ≤ account.ledger.totals.get name ∧
      account.ledger.totals.get name ≤ b.1.sumOfTotals name := by
  refine ⟨(h.totals client account haccount).get_nonneg name, ?_⟩
  refine Table.le_sum_of_get?_eq_some haccount fun other hother => ?_
  obtain ⟨key, hkey⟩ := Table.mem_values.mp hother
  exact (h.totals key other hkey).get_nonneg name

theorem PositiveBooks.sum_nonneg (h : PositiveBooks b) (name : String) :
    0 ≤ b.1.sumOfTotals name := by
  apply List.sum_nonneg
  intro a ha
  obtain ⟨account, haccount, rfl⟩ := List.mem_map.mp ha
  obtain ⟨client, hclient⟩ := Table.mem_values.mp haccount
  exact (h.totals client account hclient).get_nonneg name

theorem Posting.positive (p : Posting c b b') (h : PositiveBooks b) : PositiveBooks b' := by
  constructor
  case total =>
    cases p with
    | idle _ => exact h.total
    | add _ => exact h.total
    | remove _ => exact h.total.sub _
    | activate _ => exact h.total
    | deactivate _ => exact h.total
    | allocate _ => exact h.total.add _
    | release _ _ => exact h.total.sub _
    | replace _ _ => exact (h.total.sub _).add _
  case totals =>
    intro client
    refine p.ledger (P := fun l => l.totals.Positive) Quantities.positive_empty ?_ ?_ ?_
      (h.totals client)
    · exact fun agent bundle _ l hl => Ledger.positive_totals_add hl agent bundle
    · exact fun agent bundle _ l hl _ => Ledger.positive_totals_release hl agent bundle
    · exact fun agent old new _ l hl _ => Ledger.positive_totals_replace hl agent old new

theorem flow_of_insert (h : PositiveBooks b) (haccount : b.1.get? client = some account)
    {new : Account Int} {total : Int} {gone come : Int} (hgone : 0 ≤ gone) (hcome : 0 ≤ come)
    (hnew : new.ledger.totals.get name =
      max (account.ledger.totals.get name - gone) 0 + come)
    (htotal : total = max (b.2.get name - gone) 0 + come) :
    Flow (b.1.sumOfTotals name) (Accounts.sumOfTotals (b.1.insert client new) name)
      (b.2.get name) total (account.ledger.totals.get name) gone come := by
  obtain ⟨hnonneg, hle⟩ := h.own haccount name
  refine ⟨hnonneg, hle, hgone, hcome, ?_, htotal⟩
  have hsum := Accounts.sumOfTotals_insert haccount new name
  omega

theorem release_flow {agent : String} {bundle : Bundle Int} (h : PositiveBooks b)
    (haccount : b.1.get? client = some account) (active : Bool) (name : String) :
    Flow (b.1.sumOfTotals name)
      (Accounts.sumOfTotals
        (b.1.insert client ⟨active, (account.ledger.release agent bundle).1⟩) name)
      (b.2.get name) ((b.2 - (account.ledger.release agent bundle).2).get name)
      (account.ledger.totals.get name) ((account.ledger.release agent bundle).2.get name) 0 := by
  have hgone := (account.ledger.positive_removed agent bundle).get_nonneg name
  have hnew := Ledger.get_totals_release (h.totals client account haccount) agent bundle name
  have htotal := h.total.get_sub (account.ledger.release agent bundle).2 name
  exact flow_of_insert h haccount hgone (Int.le_refl 0) (by rw [hnew, Int.add_zero])
    (by rw [htotal, Int.add_zero])

/-- Whatever is posted, except for a release, the totals of its client cover what goes. -/
theorem Posting.flow (p : Posting c b b') (h : PositiveBooks b)
    (hc : ∀ client agent bundle, c ≠ .release client agent bundle) (name : String) :
    ∃ own gone come, Flow (b.1.sumOfTotals name) (b'.1.sumOfTotals name) (b.2.get name)
      (b'.2.get name) own gone come ∧ gone ≤ own := by
  obtain ⟨a, q⟩ := b
  have hsum : 0 ≤ a.sumOfTotals name := h.sum_nonneg name
  have htotal : 0 ≤ q.get name := h.total.get_nonneg name
  cases p with
  | idle _ => exact ⟨0, 0, 0, .still hsum htotal rfl, Int.le_refl 0⟩
  | @add client _ _ hnew =>
    have hinsert := Table.sum_insert a client ⟨false, {}⟩ fun account : Account Int =>
      account.ledger.totals.get name
    rw [hnew, Option.map_none, Option.getD_none, Int.add_zero] at hinsert
    exact ⟨0, 0, 0, .still hsum htotal (hinsert.trans (Int.add_zero _)), Int.le_refl 0⟩
  | @remove client account _ _ haccount =>
    have herase := Table.sum_erase a client fun account : Account Int =>
      account.ledger.totals.get name
    rw [haccount, Option.map_some, Option.getD_some] at herase
    change Accounts.sumOfTotals _ name + _ = a.sumOfTotals name at herase
    obtain ⟨hnonneg, hle⟩ := h.own haccount name
    have hsub := h.total.get_sub account.ledger.totals name
    refine ⟨account.ledger.totals.get name, account.ledger.totals.get name, 0,
      ⟨hnonneg, hle, hnonneg, Int.le_refl 0, ?_, ?_⟩, Int.le_refl _⟩
    · dsimp only
      omega
    · rw [hsub, Int.add_zero]
  | @activate _ account _ _ haccount =>
    have hinsert := Accounts.sumOfTotals_insert haccount ⟨true, account.ledger⟩ name
    exact ⟨0, 0, 0, .still hsum htotal (add_right_cancel hinsert), Int.le_refl 0⟩
  | @deactivate _ account _ _ haccount =>
    have hinsert := Accounts.sumOfTotals_insert haccount ⟨false, account.ledger⟩ name
    exact ⟨0, 0, 0, .still hsum htotal (add_right_cancel hinsert), Int.le_refl 0⟩
  | @allocate client agent bundle account _ _ haccount =>
    obtain ⟨hnonneg, -⟩ := h.own haccount name
    have hadded := account.ledger.positive_added agent bundle
    have hcome := hadded.get_nonneg name
    have hnew := Ledger.get_totals_add (h.totals client account haccount) agent bundle name
    have hadd := h.total.get_add hadded name
    refine ⟨_, 0, _, flow_of_insert h haccount (Int.le_refl 0) hcome ?_ ?_, hnonneg⟩
    · rw [hnew]
      omega
    · dsimp only at hadd ⊢
      omega
  | release haccount hcheck => exact absurd rfl (hc _ _ _)
  | @replace client agent old new account _ _ haccount hcheck =>
    have htotals := h.totals client account haccount
    obtain ⟨hremoved, hadded⟩ := account.ledger.positive_replaced agent old new
    have hnew := Ledger.get_totals_replace htotals agent old new name
    have hsum := (h.total.sub (account.ledger.replace agent old new).2.1).get_add hadded name
    rw [h.total.get_sub] at hsum
    have hcovered := htotals.contains_iff.mp (Ledger.checkReplace_eq_ok_iff.mp hcheck).2 name
    exact ⟨_, _, _, flow_of_insert h haccount (hremoved.get_nonneg name) (hadded.get_nonneg name)
      hnew hsum, hcovered⟩

theorem Posting.release_cases (p : Posting c b b') :
    (∀ client agent bundle, c ≠ .release client agent bundle) ∨
      ∃ client agent bundle account, c = .release client agent bundle ∧
        b.1.get? client = some account ∧ account.ledger.checkRelease agent bundle = .ok () ∧
        b' = (b.1.insert client ⟨account.active, (account.ledger.release agent bundle).1⟩,
          b.2 - (account.ledger.release agent bundle).2) := by
  cases p with
  | idle hidle =>
    refine .inl ?_
    rintro client agent bundle rfl
    exact hidle
  | @release client agent bundle account a q haccount hcheck =>
    exact .inr ⟨client, agent, bundle, account, rfl, haccount, hcheck, rfl⟩
  | add _ => exact .inl (by simp)
  | remove _ => exact .inl (by simp)
  | activate _ => exact .inl (by simp)
  | deactivate _ => exact .inl (by simp)
  | allocate _ => exact .inl (by simp)
  | replace _ _ => exact .inl (by simp)

theorem Posting.total_le (p : Posting c b b') (h : PositiveBooks b)
    (hle : b.2.get name ≤ b.1.sumOfTotals name) : b'.2.get name ≤ b'.1.sumOfTotals name := by
  rcases p.release_cases with hc | ⟨client, agent, bundle, account, rfl, haccount, -, rfl⟩
  · obtain ⟨own, gone, come, hflow, -⟩ := p.flow h hc name
    exact hflow.total_le hle
  · exact (release_flow h haccount account.active name).total_le hle

/-- Balanced books get out of balance by a release that takes more of a name than its client has in
its totals, when another client has some of it. -/
theorem Posting.balanced_iff (p : Posting c b b') (h : PositiveBooks b)
    (heq : b.2.get name = b.1.sumOfTotals name) :
    b'.2.get name = b'.1.sumOfTotals name ↔
      ∀ client agent bundle, c = .release client agent bundle →
        ((b.1.ledger client).release agent bundle).2.get name ≤
            (b.1.ledger client).totals.get name ∨
          b.1.sumOfTotals name = (b.1.ledger client).totals.get name := by
  rcases p.release_cases with hc | ⟨client, agent, bundle, account, rfl, haccount, -, rfl⟩
  · obtain ⟨own, gone, come, hflow, hgone⟩ := p.flow h hc name
    refine iff_of_true ((hflow.balanced_iff heq).mpr (.inl hgone)) ?_
    exact fun client agent bundle hrelease => absurd hrelease (hc client agent bundle)
  · have hledger : b.1.ledger client = account.ledger := by
      rw [Accounts.ledger, haccount]
    rw [(release_flow h haccount account.active name).balanced_iff heq, ← hledger]
    constructor
    · intro hcovered client' agent' bundle' hrelease
      cases hrelease
      exact hcovered
    · exact fun hall => hall client agent bundle rfl

end Posting

/-! ## Runs -/

/-- The bundles that a call brings or takes are built from normalized values, and no replacement
gives a shared instance back that is an amount. -/
def Call.KeepsSharedScalars {ω : Type} : Call Int ω → Prop
  | .allocate _ _ bundle => bundle.Built
  | .release _ _ bundle => bundle.Built
  | .replace _ _ old new => old.Built ∧ new.Built ∧ old.NoSharedScalar
  | _ => True

/-- All totals cover what is held, and the total of all is their sum. -/
structure BalancedBooks (b : Accounts Int × Quantities Int) : Prop extends PositiveBooks b where
  covered : ∀ client account, b.1.get? client = some account → account.ledger.Covered
  balanced : ∀ name, b.2.get name = b.1.sumOfTotals name

section Posting

variable {ω : Type} {c : Call Int ω} {b b' : Accounts Int × Quantities Int}

theorem Posting.covered (p : Posting c b b') (hc : c.KeepsSharedScalars)
    (h : ∀ client account, b.1.get? client = some account → account.ledger.Covered) :
    ∀ client account, b'.1.get? client = some account → account.ledger.Covered := by
  intro client
  refine p.ledger Ledger.Covered.empty ?_ ?_ ?_ (h client)
  · rintro agent bundle rfl l hl
    exact hl.add agent (Bundle.Built.normal hc)
  · rintro agent bundle rfl l hl hcheck
    exact hl.release (Bundle.Built.normal hc) hcheck
  · rintro agent old new rfl l hl hcheck
    obtain ⟨hold, hnew, hplain⟩ := hc
    exact hl.replace hold.normal hplain hnew.normal (Ledger.checkReplace_eq_ok_iff.mp hcheck).1

theorem Posting.balancedBooks (p : Posting c b b') (hc : c.KeepsSharedScalars)
    (h : BalancedBooks b) : BalancedBooks b' := by
  refine ⟨p.positive h.toPositiveBooks, p.covered hc h.covered, fun name => ?_⟩
  refine (p.balanced_iff h.toPositiveBooks (h.balanced name)).mpr ?_
  rcases p.release_cases with hne | ⟨client, agent, bundle, account, rfl, haccount, hcheck, -⟩
  · exact fun client agent bundle hrelease => absurd hrelease (hne client agent bundle)
  · intro client' agent' bundle' hrelease
    cases hrelease
    have hledger : b.1.ledger client = account.ledger := by
      rw [Accounts.ledger, haccount]
    have hcovered := h.covered client account haccount
    rw [hledger]
    exact .inl (hcovered.get_release_le (Bundle.Built.normal hc) hcheck
      (hcovered.surplus_nonneg name))

end Posting

namespace Lottery

variable {ω γ : Type} {l : Lottery Int ω γ} {a : Accounts Int}

def sumOfTotals (l : Lottery Int ω γ) (name : String) : Int :=
  (l.tree.clients.entries.map fun e => (l.totals e.1).get name).sum

theorem Tracks.sumOfTotals_eq (h : Tracks l a) (name : String) :
    l.sumOfTotals name = a.sumOfTotals name := by
  rw [Lottery.sumOfTotals, Accounts.sumOfTotals, ← h.accounts_eq, Table.values_map, List.map_map,
    Table.values, List.map_map]
  congr 1
  apply List.map_congr_left
  intro e he
  have hleaf : l.tree.client? e.1 = some e.2 := (Table.get?_eq_some_iff _ _ _).mpr he
  rw [totals, Lottery.ledger, hleaf]
  rfl

variable [Weight ω] [RaceTime ω] [WordSource γ]

theorem positive_after (settings : Settings) (g : γ) (calls : List (Call Int ω)) :
    ∃ a, Tracks (after settings g calls) a ∧
      PositiveBooks (a, (after settings g calls).total) ∧
      ∀ name, (after settings g calls).total.get name ≤ a.sumOfTotals name := by
  refine books_after settings g calls
    (P := fun b => PositiveBooks b ∧ ∀ name, b.2.get name ≤ b.1.sumOfTotals name) ?_ ?_
  · refine ⟨⟨Quantities.positive_empty, ?_⟩, fun name => Int.le_refl 0⟩
    exact fun client account haccount => absurd haccount (by simp)
  · exact fun c _ b b' h p => ⟨p.positive h.1, fun name => p.total_le h.1 (h.2 name)⟩

theorem balanced_after (settings : Settings) (g : γ) {calls : List (Call Int ω)}
    (hcalls : ∀ c ∈ calls, c.KeepsSharedScalars) :
    ∃ a, Tracks (after settings g calls) a ∧
      BalancedBooks (a, (after settings g calls).total) := by
  refine books_after settings g calls (P := BalancedBooks) ?_
    fun c hc b b' h p => p.balancedBooks (hcalls c hc) h
  refine ⟨⟨Quantities.positive_empty, ?_⟩, ?_, fun name => rfl⟩
  · exact fun client account haccount => absurd haccount (by simp)
  · exact fun client account haccount => absurd haccount (by simp)

/-- The total of all never exceeds the sum of the totals of the clients. It is that sum, unless a
replacement gives back a shared instance that is an amount. A call breaks the balance exactly when
it releases more of a name than its client has in its totals, while another client has some. -/
theorem total_against_sum (settings : Settings) (g : γ) (calls : List (Call Int ω)) :
    let l := after settings g calls
    (∀ name, l.total.get name ≤ l.sumOfTotals name) ∧
    ((∀ c ∈ calls, c.KeepsSharedScalars) → ∀ name, l.total.get name = l.sumOfTotals name) ∧
    ∀ c order l' name, l.attempt c = .ok (order, l') → l.total.get name = l.sumOfTotals name →
      (l'.total.get name = l'.sumOfTotals name ↔
        ∀ client agent bundle, c = .release client agent bundle →
          ((l.ledger client).release agent bundle).2.get name ≤ (l.totals client).get name ∨
            l.sumOfTotals name = (l.totals client).get name) := by
  obtain ⟨a, htracks, hpositive, hle⟩ := positive_after settings g calls
  refine ⟨fun name => ?_, fun hcalls name => ?_, fun c order l' name hl heq => ?_⟩
  · rw [htracks.sumOfTotals_eq]
    exact hle name
  · obtain ⟨a', htracks', hbalanced⟩ := balanced_after settings g hcalls
    rw [htracks'.sumOfTotals_eq]
    exact hbalanced.balanced name
  · obtain ⟨a', htracks', p⟩ := htracks.posting hl
    rw [htracks.sumOfTotals_eq] at heq
    rw [htracks'.sumOfTotals_eq, htracks.sumOfTotals_eq]
    simp only [totals, htracks.ledger]
    exact p.balanced_iff hpositive heq

/-! ## Two copies of a volume -/

def volume : Resource Int := ⟨"disk", .ofAmount 10000, none, true, some "v"⟩

/-- One client gets two copies of a volume, gives one copy back by a replacement, and releases the
other one. Another client has as much disk space. -/
def volumeCalls : List (Call Int Float) :=
  [.add "a", .add "b",
    .allocate "b" "s" (.insert {} ⟨"disk", .ofAmount 10000, none, false, none⟩),
    .allocate "a" "s" (Bundle.putCopies {} volume 2),
    .replace "a" "s" (.insert {} volume) {}, .release "a" "s" (.insert {} volume)]

/-- Both copies are taken from the total, though the volume counted once. -/
theorem total_misses_sum :
    let l := after .default (Keystream.ofSeed 1) volumeCalls
    l.contains "a" = true ∧ l.contains "b" = true ∧ l.total.get "disk" = 0 ∧
      l.sumOfTotals "disk" = 10000 := by
  decide +kernel

theorem total_against_sum_volume :
    (∀ c ∈ volumeCalls.take 4, c.KeepsSharedScalars) ∧
    let l := after .default (Keystream.ofSeed 1) (volumeCalls.take 4)
    l.total.get "disk" = 20000 ∧ l.total.get "disk" = l.sumOfTotals "disk" := by
  have hvalue : (Value.ofAmount (10000 : Int)).Normalized := .ofAmount (by decide)
  have hcalls : ∀ c ∈ volumeCalls.take 4, c.KeepsSharedScalars := by
    intro c hc
    simp only [volumeCalls, List.take_succ_cons, List.take_zero, List.mem_cons, List.not_mem_nil,
      or_false] at hc
    rcases hc with rfl | rfl | rfl | rfl
    · trivial
    · trivial
    · exact .putCopies 1 .empty hvalue
    · exact .putCopies 2 .empty hvalue
  obtain ⟨-, hbalanced, -⟩ := total_against_sum .default (Keystream.ofSeed 1) (volumeCalls.take 4)
  exact ⟨hcalls, by decide +kernel, hbalanced hcalls "disk"⟩

end Lottery

end RoleLottery
