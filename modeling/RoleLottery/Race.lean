import RoleLottery.Binary64
import RoleLottery.Keystream
import RoleLottery.Weight

/-!
# Weighted shuffles

A shuffle is a race. Every client with a positive weight draws a time that is distributed
exponentially with its weight as the rate, and the clients come in the order of their times. A
client then comes first with a chance that is its share of all weights.
-/

namespace RoleLottery

/-- The times of a race, as places in a total order. -/
class RaceTime (ω : Type) where
  place : UInt64 → ω → Int

/-- The time `-ln u / w`, where `u` in `(0, 1]` is one less the upper 53 bits of the word as a
fraction. -/
def raceTime (word : UInt64) (weight : Float) : Float :=
  let u := (1 : Float) - (word >>> 11).toFloat / 9007199254740992
  Float.neg (Float.log u) / weight

instance : RaceTime Float := ⟨fun word weight => Binary64.rank (raceTime word weight)⟩

namespace Race

variable {ω γ : Type} [Weight ω] [RaceTime ω] [WordSource γ]

def run (g : γ) : List (String × ω) → List (Int × String) × γ
  | [] => ([], g)
  | (client, weight) :: rest =>
    let (word, g) := WordSource.next g
    let (timed, g) := run g rest
    ((RaceTime.place word weight, client) :: timed, g)

/-- The clients with positive weight in the order of their times. Of the two lists the shorter one
decides, and equal times leave the order of the clients as it was. -/
def shuffle (clients : List String) (weights : List ω) (g : γ) : List String × γ :=
  let (timed, g) := run g ((clients.zip weights).filter fun e => Weight.isPositive e.2)
  ((timed.mergeSort fun a b => a.1 ≤ b.1).map (·.2), g)

end Race

end RoleLottery
