import RoleLottery.RoleTree.Audit

/-!
# Errors of a lottery

Every cause except a breach is a call that the caller should not have made.
-/

namespace RoleLottery

def ClientFault.message : ClientFault → String
  | .alreadyPresent client => "client already exists: " ++ client
  | .unknown client => "client not found: " ++ client
  | .invalidPath path fault => "invalid client path '" ++ path ++ "': " ++ fault.message

def LedgerFault.message {α : Type} [DecimalText α] (client agent : String) :
    LedgerFault α → String
  | .nothingHeld => "client " ++ client ++ " has no allocation on agent " ++ agent
  | .insufficientHoldings held requested =>
    "client " ++ client ++ " on agent " ++ agent ++ " holds " ++ held.text ++
      ", cannot release " ++ requested.text
  | .insufficientTotals totals requested =>
    "client " ++ client ++ " totals [" ++ totals.text ++ "] do not cover [" ++ requested.text ++ "]"

/-- What an audit of a whole lottery finds. -/
inductive Breach (α ω : Type)
  | tree (breach : TreeBreach ω)
  /-- The totals of a client are not the sum of its holdings. -/
  | clientTotals (client : String) (totals expected : Quantities α)
  /-- The totals of the lottery are not the sum of those of its clients. -/
  | lotteryTotals (total sum : Quantities α)
  | staleShares

def Breach.message {α ω : Type} [DecimalText α] [DecimalText ω] : Breach α ω → String
  | .tree breach => breach.message DecimalText.write
  | .clientTotals client totals expected =>
    "totals of '" ++ client ++ "' are [" ++ totals.text ++ "] but its resources sum to [" ++
      expected.text ++ "]"
  | .lotteryTotals total sum =>
    "sorter total is [" ++ total.text ++ "] but client totals sum to [" ++ sum.text ++ "]"
  | .staleShares => "cached sort info is stale but not marked dirty"

inductive LotteryError (α ω : Type)
  | client (fault : ClientFault)
  /-- Weights are finite and not negative. -/
  | invalidWeight (path : String) (weight : ω)
  | ledger (client agent : String) (fault : LedgerFault α)
  | breach (breach : Breach α ω)

def LotteryError.message {α ω : Type} [DecimalText α] [DecimalText ω] :
    LotteryError α ω → String
  | .client fault => fault.message
  | .invalidWeight path weight =>
    "invalid weight " ++ DecimalText.write weight ++ " for '" ++ path ++ "'"
  | .ledger holder agent fault => fault.message holder agent
  | .breach found => "sorter invariant violated: " ++ found.message

end RoleLottery
