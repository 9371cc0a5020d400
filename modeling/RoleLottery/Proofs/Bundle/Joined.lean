import RoleLottery.Proofs.Bundle.Collecting
import RoleLottery.Proofs.Bundle.Composed

/-!
# Texts joined by a semicolon

The fields of two texts with a semicolon between them are those of the first and then those of the
second. So the first fault that there is comes out, whatever the arithmetic of amounts, and if there
is none, the joined text is read as the sum.
-/

namespace RoleLottery.Bundle

section

variable {α : Type} [Amount α] [DecimalText α] {x y : String} {fault : BundleFault}

theorem resourcesOf_append (x y : String) :
    (resourcesOf (x ++ ";" ++ y) : Except BundleFault (List (Resource α))) = do
      return (← resourcesOf x) ++ (← resourcesOf y) := by
  have hchars : (x ++ ";" ++ y).toList = x.toList ++ ';' :: y.toList := by simp
  rw [resourcesOf, hchars, trimmedFields_append, List.mapM_append]
  rfl

theorem parse_eq_error_iff : (parse x : Except BundleFault (Bundle α)) = .error fault ↔
    (resourcesOf x : Except BundleFault (List (Resource α))) = .error fault := by
  rw [parse_eq]
  cases (resourcesOf x : Except BundleFault (List (Resource α))) <;> simp [Except.map]

theorem exists_parse_iff : (∃ b : Bundle α, parse x = .ok b) ↔
    ∃ rs : List (Resource α), resourcesOf x = .ok rs := by
  rw [parse_eq]
  cases (resourcesOf x : Except BundleFault (List (Resource α))) <;> simp [Except.map]

theorem parse_append_eq_error_iff :
    (parse (x ++ ";" ++ y) : Except BundleFault (Bundle α)) = .error fault ↔
      (parse x : Except BundleFault (Bundle α)) = .error fault ∨
        (∃ b : Bundle α, parse x = .ok b) ∧
          (parse y : Except BundleFault (Bundle α)) = .error fault := by
  rw [parse_eq_error_iff, parse_eq_error_iff, parse_eq_error_iff, exists_parse_iff,
    resourcesOf_append]
  cases (resourcesOf x : Except BundleFault (List (Resource α))) with
  | error first => simp [bind, Except.bind]
  | ok rs =>
    cases (resourcesOf y : Except BundleFault (List (Resource α))) <;>
      simp [bind, Except.bind, pure, Except.pure]

end

variable [DecimalText Int]

/-- Two texts with a semicolon between them fail with the fault of the first text, or else with
that of the second, and are read as the sum of what they are read as. -/
theorem parse_append {α : Type} [Amount α] [DecimalText α] (x y : String) :
    ((parse (x ++ ";" ++ y) : Except BundleFault (Bundle Int)) = do
      return (← parse x) + (← parse y)) ∧
    ∀ fault, (parse (x ++ ";" ++ y) : Except BundleFault (Bundle α)) = .error fault ↔
      (parse x : Except BundleFault (Bundle α)) = .error fault ∨
        (∃ b : Bundle α, parse x = .ok b) ∧
          (parse y : Except BundleFault (Bundle α)) = .error fault := by
  refine ⟨?_, fun _ => parse_append_eq_error_iff⟩
  rw [parse_eq, parse_eq, parse_eq, resourcesOf_append]
  cases hx : (resourcesOf x : Except BundleFault (List (Resource Int))) with
  | error fault => rfl
  | ok rs =>
    cases hy : (resourcesOf y : Except BundleFault (List (Resource Int))) with
    | error fault => rfl
    | ok ss =>
      have hsum := ofList_append (constructed_of_resourcesOf hx) (constructed_of_resourcesOf hy)
      exact congrArg Except.ok hsum

end RoleLottery.Bundle
