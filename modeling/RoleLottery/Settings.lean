import RoleLottery.Json.Number
import RoleLottery.Json.Parser
import RoleLottery.Json.Writer
import RoleLottery.Labels

/-!
# Settings

What a lottery is set up with. Every setting may be missing.
-/

namespace RoleLottery

structure Settings where
  allocator : Option String
  metricsLabel : Option String
  seed : Option UInt64
  /-- Names of scalar resources that do not count for fairness. -/
  excluded : Option Labels
  deriving DecidableEq

namespace Settings

def default : Settings := ⟨none, none, none, none⟩

/-- The settings that only say whose lottery it is. -/
def ofIdentity (allocator metricsLabel : Option String) : Settings :=
  { default with allocator := allocator, metricsLabel := metricsLabel }

def fieldNames : List String :=
  ["allocator", "metrics_prefix", "seed", "fairness_exclude_resource_names"]

def ofJson? (j : Json) : Option Settings := do
  let labels? (j : Json) : Option Labels := (j.list? Json.text?).map Labels.ofList
  match ← j.record? fieldNames with
  | [allocator, metricsLabel, seed, excluded] =>
    some {
      allocator := ← (allocator.getD .null).nullable? Json.text?
      metricsLabel := ← (metricsLabel.getD .null).nullable? Json.text?
      seed := ← (seed.getD .null).nullable? Json.uint64?
      excluded := ← (excluded.getD .null).nullable? labels? }
  | _ => none

def ofJsonText? (text : String) : Option Settings := Json.parse? text >>= ofJson?

def json (s : Settings) : String :=
  let names (labels : Labels) : String := Json.writeArray (labels.items.map Json.quote)
  Json.writeObject (fieldNames.zip
    [Json.writeNullable Json.quote s.allocator, Json.writeNullable Json.quote s.metricsLabel,
      Json.writeNullable (fun seed => toString seed.toNat) s.seed,
      Json.writeNullable names s.excluded])

end Settings

end RoleLottery
