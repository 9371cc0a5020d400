import RoleLottery.Race

/-!
# Who takes part in a race

A race puts those clients in a new order that have a positive weight. Whatever times they draw, it
leaves none of them out and lets no other one in.
-/

namespace RoleLottery.Race

variable {ω γ : Type} [RaceTime ω] [WordSource γ]

theorem map_run (g : γ) (entries : List (String × ω)) :
    (run g entries).1.map (·.2) = entries.map (·.1) := by
  induction entries generalizing g with
  | nil => rfl
  | cons e entries ih =>
    simp only [run, List.map_cons, ih]

variable [Weight ω]

theorem shuffle_perm (entries : List (String × ω)) (g : γ) :
    (shuffle (entries.map (·.1)) (entries.map (·.2)) g).1.Perm
      ((entries.filter fun e => Weight.isPositive e.2).map (·.1)) := by
  have hzip : (entries.map (·.1)).zip (entries.map (·.2)) = entries :=
    (List.zip_of_prod rfl rfl).symm
  simp only [shuffle, hzip]
  rw [← map_run g]
  exact (List.mergeSort_perm _ _).map _

end RoleLottery.Race
