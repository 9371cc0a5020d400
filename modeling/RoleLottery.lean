import RoleLottery.Bundle.Json
import RoleLottery.Bundle.Parser
import RoleLottery.Lottery.Audit
import RoleLottery.Lottery.Text
import RoleLottery.Quantities.Json
import RoleLottery.RoleTree.Outline
import RoleLottery.Proofs.RolePath
import RoleLottery.Proofs.RoleTree.Linked
import RoleLottery.Proofs.Table
import RoleLottery.Proofs.RoleTree.Moves
import RoleLottery.Proofs.RoleTree.Sound
import RoleLottery.Proofs.RoleTree.Accounts
import RoleLottery.Proofs.RoleTree.Adding
import RoleLottery.Proofs.RoleTree.Lineage
import RoleLottery.Proofs.RoleTree.Removing
import RoleLottery.Proofs.RoleTree.History
import RoleLottery.Proofs.RoleTree.Shape
import RoleLottery.Proofs.Lottery.Accounts
import RoleLottery.Proofs.RoleTree.Canonical
import RoleLottery.Proofs.RoleTree.Finding
import RoleLottery.Proofs.RoleTree.KeptWeights
import RoleLottery.Proofs.Lottery.Uncached
import RoleLottery.Proofs.RoleTree.Walks
import RoleLottery.Proofs.RoleTree.Audited
import RoleLottery.Proofs.RoleTree.Checked
import RoleLottery.Proofs.RoleTree.Arena
import RoleLottery.Proofs.Quantities
import RoleLottery.Proofs.Bundle.Keys
import RoleLottery.Proofs.Bundle.Summed
import RoleLottery.Proofs.Bundle.Amounts
import RoleLottery.Proofs.Ledger
import RoleLottery.Proofs.Lottery.Books
import RoleLottery.Proofs.Lottery.Held
import RoleLottery.Proofs.Lottery.Balance
import RoleLottery.Proofs.Shares
import RoleLottery.Proofs.RoleTree.Leading
import RoleLottery.Proofs.RoleTree.Odds
import RoleLottery.Proofs.Lottery.Odds
import RoleLottery.Proofs.RoleTree.ActiveRoles
import RoleLottery.Proofs.Lottery.SameOdds
import RoleLottery.Proofs.Lottery.Apart
import RoleLottery.Proofs.Lottery.InPlace
import RoleLottery.Proofs.Content
import RoleLottery.Proofs.Bundle.Canonical
import RoleLottery.Proofs.Bundle.Pointwise
import RoleLottery.Proofs.Lottery.RoundTrip
import RoleLottery.Proofs.Race
import RoleLottery.Proofs.RoleTree.Outline
import RoleLottery.Proofs.Lottery.Draws
import RoleLottery.Proofs.Lottery.RaisedWeight
import RoleLottery.Proofs.Binary64.Mantissa
import RoleLottery.Proofs.Binary64.Unpacked
import RoleLottery.Proofs.Binary64.Doubles
import RoleLottery.Proofs.Binary64.Thousandths
import RoleLottery.Proofs.Bundle.Copies
import RoleLottery.Proofs.Bundle.Withdrawals
import RoleLottery.Proofs.Binary64.Magnitudes
import RoleLottery.Proofs.Lottery.Withdrawals
import RoleLottery.Proofs.Binary64.Portions
import RoleLottery.Proofs.RoleTree.Halvings
import RoleLottery.Proofs.Lottery.PositiveShares
import RoleLottery.Proofs.Ranges
import RoleLottery.Proofs.Bundle.Containment
import RoleLottery.Proofs.Bundle.Collecting
import RoleLottery.Proofs.Binary64.Rounding
import RoleLottery.Proofs.Bundle.Made
import RoleLottery.Proofs.Bundle.Emptied
import RoleLottery.Proofs.Bundle.Parsed
import RoleLottery.Proofs.Bundle.Rebuilt
import RoleLottery.Proofs.Json.Scanning
import RoleLottery.Proofs.Json.Written
import RoleLottery.Proofs.Bundle.Serialized
import RoleLottery.Proofs.Decimal
import RoleLottery.Proofs.Bundle.Joined
import RoleLottery.Proofs.Bundle.Composed
import RoleLottery.Proofs.Bundle.Printed
import RoleLottery.Proofs.Quantities.Stored
import RoleLottery.Proofs.Race.Times
import RoleLottery.Proofs.Loop
import RoleLottery.Proofs.RoleTree.Stacks
import RoleLottery.Proofs.RoleTree.Loops
import RoleLottery.Proofs.RolePath.Splitting
import RoleLottery.Proofs.Quantities.Summaries
