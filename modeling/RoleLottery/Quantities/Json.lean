import RoleLottery.Json.Number
import RoleLottery.Json.Parser
import RoleLottery.Json.Writer
import RoleLottery.Quantities

/-!
# Quantities as JSON

An object from names to amounts. Amounts are read as they stand, and of a name that comes twice the
last amount counts.
-/

namespace RoleLottery.Quantities

variable {α : Type} [Amount α] [JsonNumber α]

def ofJsonText? (text : String) : Option (Quantities α) := do
  let members ← (← Json.parse? text).members?
  let amounts ← members.mapM fun (name, j) => do
    some (name, (← JsonNumber.ofNumeral? (← j.numeral?) : α))
  some ⟨Table.ofList amounts⟩

def json (q : Quantities α) : String :=
  Json.writeObject (q.amounts.entries.map fun (name, amount) => (name, JsonNumber.write amount))

end RoleLottery.Quantities
