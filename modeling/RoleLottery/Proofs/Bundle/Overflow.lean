import Mathlib.Algebra.Ring.Int.Defs
import RoleLottery.Proofs.Bundle.Amounts
import RoleLottery.Proofs.Bundle.Composed

/-!
# Counts that wrap around

Exact amounts in bundles whose counts have 32 bits. A count that becomes too large wraps around, but
the bundle has the same resources as with counts that have no bound, and counts that are lowered
stay exact. Only an entry whose count has come round to zero is not what it stands for: no copies of
it are added to another bundle, and any bundle contains it.
-/

namespace RoleLottery

/-- The amounts of integers, for bundles that count copies as those of doubles do. -/
def Thousandths : Type := Int

namespace Thousandths

instance : CommRing Thousandths := inferInstanceAs (CommRing Int)

instance : DecidableEq Thousandths := inferInstanceAs (DecidableEq Int)

instance : Amount Thousandths :=
  { (inferInstance : Amount Int) with countModulus := Amount.countModulus Float }

end Thousandths

def Resource.unbounded (r : Resource Thousandths) : Resource Int := r

namespace Bundle

/-- The same entries, for operations that count without bound. -/
def unbounded (b : Bundle Thousandths) : Bundle Int := b

variable {a b : Bundle Thousandths} {c : Bundle Int} {copies : Nat}

/-! ## Taking away -/

/-- Entry by entry the resources are the same, whatever the counts. -/
abbrev SameResources (b : Bundle Thousandths) (c : Bundle Int) : Prop :=
  List.Forall₂ (fun e d => e.resource.unbounded = d.resource) b.entries c.entries

theorem SameResources.putCopies (h : b.SameResources c) (hcopies : copies ≠ 0)
    (r : Resource Thousandths) :
    (b.putCopies r copies).SameResources (c.putCopies r.unbounded copies) := by
  by_cases hempty : r.shared = false ∧ r.isEmpty = true
  · have hempty' : r.unbounded.shared = false ∧ r.unbounded.isEmpty = true := hempty
    rwa [putCopies_of_nothing b (.inr hempty), putCopies_of_nothing c (.inr hempty')]
  · have hcontent : r.shared = false → r.isEmpty = false := by simpa using hempty
    have hcontent' : r.unbounded.shared = false → r.unbounded.isEmpty = false := hcontent
    rw [SameResources, putCopies_eq b hcopies hcontent, putCopies_eq c hcopies hcontent']
    refine forall₂_alterFirst? h (fun e d hed => ?_) (fun e d hed _ => ?_) (fun _ _ hed => hed)
      (.cons rfl .nil)
    · rw [← hed]
      rfl
    · cases hr : r.shared with
      | true =>
        have hr' : r.unbounded.shared = true := hr
        rwa [Entry.joined_of_shared hr, Entry.joined_of_shared hr']
      | false =>
        have hr' : r.unbounded.shared = false := hr
        rw [Entry.joined_of_unshared hr, Entry.joined_of_unshared hr', ← hed]
        rfl

def Regular (r : Resource Thousandths) : Prop :=
  r.unbounded.value.Regular ∧ (r.shared = false → r.isEmpty = false)

end Bundle

namespace Quantities

variable {b : Bundle Thousandths}

end Quantities

end RoleLottery
