import RoleLottery.Lottery.Basic

/-!
# Audit of lotteries

The tree and its kept weights, the totals of every client and of all together, and the kept shares
are compared with what they stand for. The first difference is reported.
-/

namespace RoleLottery.Lottery

variable {α ω γ : Type} [Amount α] [Weight ω]

/-- The sum of the totals of the given clients, each of which has to be what its holdings sum
to. -/
def auditTotals (t : RoleTree α ω) (sum : Quantities α) :
    List (String × NodeId) → Except (Breach α ω) (Quantities α)
  | [] => .ok sum
  | (client, leaf) :: rest =>
    let ledger := (t.node leaf).ledger
    if ledger.totals == ledger.recount then auditTotals t (sum + ledger.totals) rest
    else .error (.clientTotals client ledger.totals ledger.recount)

/-- The kept shares are those of the same clients and nearly the same. -/
def hasFreshShares (l : Lottery α ω γ) : Bool :=
  let shares := l.tree.shares l.weights
  shares.map (·.1) == l.cache.shares.map (·.1) &&
    (shares.zip l.cache.shares).all fun (e, f) => Weight.isClose e.2 f.2

def audit (l : Lottery α ω γ) : Except (LotteryError α ω) Unit :=
  let found : Except (Breach α ω) Unit := do
    l.tree.audit.mapError .tree
    (l.tree.auditWeights l.weights).mapError .tree
    let sum ← auditTotals l.tree {} l.tree.clients.entries
    if !(sum == l.total) then throw (.lotteryTotals l.total sum)
    if !l.cache.isDirty && !l.hasFreshShares then throw .staleShares
  found.mapError .breach

end RoleLottery.Lottery
