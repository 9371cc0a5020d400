import RoleLottery.Proofs.Bundle.Pointwise

/-!
# Laws of containment

A bundle contains another exactly when what is taken away can be put back to give the same bundle.
Containment is a preorder, being the same is an equivalence, and sums, differences and containment
do not tell bundles apart that are the same, whatever the order of their entries.
-/

namespace RoleLottery.Bundle

variable {a b c d : Bundle Int}

theorem Canonical.contains_iff_sub_add (ha : a.Canonical) (hb : b.Canonical) :
    a.contains b = true ↔ (a - b + b == a) = true := by
  rw [ha.contains_iff hb, ((ha.sub hb).add hb).beq_iff ha]
  refine forall_congr' fun key => ?_
  rw [(ha.sub hb).contentAt_add hb, ha.contentAt_sub hb,
    Content.without_join_eq_iff (alike_contentAt a b key)]

theorem Canonical.contains_refl (ha : a.Canonical) : a.contains a = true :=
  (ha.contains_iff ha).mpr fun _ => Content.within_refl _

theorem Canonical.contains_trans (ha : a.Canonical) (hb : b.Canonical) (hc : c.Canonical)
    (hab : a.contains b = true) (hbc : b.contains c = true) : a.contains c = true := by
  rw [ha.contains_iff hb] at hab
  rw [hb.contains_iff hc] at hbc
  exact (ha.contains_iff hc).mpr fun key => (hbc key).trans (hab key)

/-! ## The same bundles -/

theorem Canonical.beq_refl (ha : a.Canonical) : (a == a) = true :=
  (ha.beq_iff ha).mpr fun _ => rfl

theorem Canonical.beq_symm (ha : a.Canonical) (hb : b.Canonical) (h : (a == b) = true) :
    (b == a) = true := by
  rw [ha.beq_iff hb] at h
  exact (hb.beq_iff ha).mpr fun key => (h key).symm

theorem Canonical.beq_trans (ha : a.Canonical) (hb : b.Canonical) (hc : c.Canonical)
    (hab : (a == b) = true) (hbc : (b == c) = true) : (a == c) = true := by
  rw [ha.beq_iff hb] at hab
  rw [hb.beq_iff hc] at hbc
  exact (ha.beq_iff hc).mpr fun key => (hab key).trans (hbc key)

section

variable (ha : a.Canonical) (hb : b.Canonical) (hc : c.Canonical) (hd : d.Canonical)
  (hab : (a == b) = true) (hcd : (c == d) = true)

include ha hb hc hd hab hcd

theorem Canonical.add_congr : (a + c == b + d) = true := by
  rw [ha.beq_iff hb] at hab
  rw [hc.beq_iff hd] at hcd
  rw [(ha.add hc).beq_iff (hb.add hd)]
  intro key
  rw [ha.contentAt_add hc, hb.contentAt_add hd, hab, hcd]

theorem Canonical.sub_congr : (a - c == b - d) = true := by
  rw [ha.beq_iff hb] at hab
  rw [hc.beq_iff hd] at hcd
  rw [(ha.sub hc).beq_iff (hb.sub hd)]
  intro key
  rw [ha.contentAt_sub hc, hb.contentAt_sub hd, hab, hcd]

theorem Canonical.contains_congr : a.contains c = b.contains d := by
  rw [ha.beq_iff hb] at hab
  rw [hc.beq_iff hd] at hcd
  rw [Bool.eq_iff_iff, ha.contains_iff hc, hb.contains_iff hd]
  simp only [hab, hcd]

end

/-- The laws of containment, sums, differences and being the same, for bundles that are built from
constructed values. -/
theorem containment_laws (ha : a.Assembled) (hb : b.Assembled) (hc : c.Assembled)
    (hd : d.Assembled) :
    (a.contains b = true ↔ (a - b + b == a) = true) ∧
    (a + b).contains b = true ∧
    a.contains a = true ∧
    (a.contains b = true → b.contains c = true → a.contains c = true) ∧
    (a == a) = true ∧
    ((a == b) = true → (b == a) = true) ∧
    ((a == b) = true → (b == c) = true → (a == c) = true) ∧
    ((a == b) = true → (c == d) = true →
      (a + c == b + d) = true ∧ (a - c == b - d) = true ∧ a.contains c = b.contains d) := by
  have hac := ha.canonical
  have hbc := hb.canonical
  have hcc := hc.canonical
  have hdc := hd.canonical
  refine ⟨hac.contains_iff_sub_add hbc, hac.contains_add hbc, hac.contains_refl,
    hac.contains_trans hbc hcc, hac.beq_refl, hac.beq_symm hbc, hac.beq_trans hbc hcc, ?_⟩
  intro hab hcd
  exact ⟨hac.add_congr hbc hcc hdc hab hcd, hac.sub_congr hbc hcc hdc hab hcd,
    hac.contains_congr hbc hcc hdc hab hcd⟩

/-- Two cores, ports and two copies of a volume. -/
def machine : Bundle Int :=
  ofList [⟨"cpus", .ofAmount 2000, none, false, none⟩,
    ⟨"ports", .ofRanges [⟨1, 9⟩], none, false, none⟩,
    ⟨"disk", .ofAmount 10000, none, true, some "vol-1"⟩,
    ⟨"disk", .ofAmount 10000, none, true, some "vol-1"⟩]

/-- All the cores of the machine, some ports and one copy of the volume. -/
def task : Bundle Int :=
  ofList [⟨"ports", .ofRanges [⟨4, 6⟩], none, false, none⟩,
    ⟨"cpus", .ofAmount 2000, none, false, none⟩,
    ⟨"disk", .ofAmount 10000, none, true, some "vol-1"⟩]

/-- The cores come back as the last entry. -/
theorem containment_laws_task :
    machine.Assembled ∧ task.Assembled ∧ machine.contains task = true ∧
    (machine - task + task == machine) = true ∧ machine - task + task ≠ machine := by
  have hmachine : machine.Assembled := by
    refine composed_ofList ?_
    simp only [List.forall_mem_cons]
    exact ⟨.ofAmount _, .ofRanges _, .ofAmount _, .ofAmount _, by simp⟩
  have htask : task.Assembled := by
    refine composed_ofList ?_
    simp only [List.forall_mem_cons]
    exact ⟨.ofRanges _, .ofAmount _, .ofAmount _, by simp⟩
  have hcontains : machine.contains task = true := by decide +kernel
  obtain ⟨hback, -⟩ := containment_laws hmachine htask htask htask
  exact ⟨hmachine, htask, hcontains, hback.mp hcontains, by decide +kernel⟩

end RoleLottery.Bundle
