import RoleLottery.Proofs.RolePath

/-!
# Client paths and their segments

Splitting accepts exactly the paths that come of joining segments to the root, and gives back the
segments that were joined. So a client path is as good as the list of its segments, and a path lies
below another one when its list goes on where the other one ends.
-/

namespace RoleLottery.RolePath

def IsSegment (s : String) : Prop := IsName s ∧ s ≠ ownLeaf

variable {p q path : String} {names others : List String}

theorem joinAll_root_eq_empty_iff (h : ∀ name ∈ names, IsName name) :
    joinAll "" names = "" ↔ names = [] := by
  constructor
  · intro hempty
    by_contra hne
    have hsegments := segments_joinAll_root hne h
    rw [hempty] at hsegments
    -- The one segment of the empty path is no name.
    have hmem : "" ∈ names := hsegments ▸ List.mem_singleton.mpr rfl
    exact (h "" hmem).1 rfl
  · rintro rfl
    rfl

theorem joinAll_root_injective (h : ∀ name ∈ names, IsName name)
    (h' : ∀ name ∈ others, IsName name) (hjoin : joinAll "" names = joinAll "" others) :
    names = others := by
  by_cases hempty : joinAll "" names = ""
  · rw [(joinAll_root_eq_empty_iff h).mp hempty,
      (joinAll_root_eq_empty_iff h').mp (hjoin ▸ hempty)]
  · have hne : names ≠ [] := fun hnil => hempty ((joinAll_root_eq_empty_iff h).mpr hnil)
    have hne' : others ≠ [] := fun hnil =>
      hempty (hjoin ▸ (joinAll_root_eq_empty_iff h').mpr hnil)
    rw [← segments_joinAll_root hne h, hjoin, segments_joinAll_root hne' h']

/-! ## Splitting -/

theorem split_joinAll (hne : names ≠ []) (h : ∀ name ∈ names, IsSegment name) :
    split (joinAll "" names) = .ok names := by
  have hnames : ∀ name ∈ names, IsName name := fun name hname => (h name hname).1
  have hpath : joinAll "" names ≠ "" := fun hempty =>
    hne ((joinAll_root_eq_empty_iff hnames).mp hempty)
  have hfault : firstFault? names = none := by
    have hnone := firstFault?_append (fun s hs => ⟨(hnames s hs).1, (h s hs).2⟩) []
    rwa [List.append_nil] at hnone
  rw [split, if_neg hpath, segments_joinAll_root hne hnames, hfault]

theorem split_eq_ok_iff : split path = .ok names ↔
    names ≠ [] ∧ (∀ name ∈ names, IsSegment name) ∧ joinAll "" names = path := by
  constructor
  · intro h
    obtain ⟨-, hsegments, hnames⟩ := of_split_eq_ok h
    exact ⟨hsegments ▸ segments_ne_nil path, hnames, joinAll_of_split_eq_ok h⟩
  · rintro ⟨hne, hnames, rfl⟩
    exact split_joinAll hne hnames

theorem exists_below_iff (hp : split p = .ok names) (hq : split q = .ok others) :
    (∃ rest, rest ≠ "" ∧ q = p ++ "/" ++ rest) ↔ ∃ more, more ≠ [] ∧ others = names ++ more := by
  obtain ⟨-, rfl, -⟩ := of_split_eq_ok hp
  obtain ⟨-, rfl, hvalid⟩ := of_split_eq_ok hq
  constructor
  · rintro ⟨rest, -, rfl⟩
    exact ⟨segments rest, segments_ne_nil rest, segments_slash p rest⟩
  · rintro ⟨more, hne, hmore⟩
    have hnames : ∀ name ∈ more, IsName name := fun name hname =>
      (hvalid name (hmore ▸ List.mem_append_right _ hname)).1
    refine ⟨joinAll "" more, fun hempty => hne ((joinAll_root_eq_empty_iff hnames).mp hempty), ?_⟩
    apply segments_injective
    rw [segments_slash, segments_joinAll_root hne hnames, hmore]

/-- Splitting and joining undo each other, between the accepted paths and the lists of segments that
are not empty. No other path is accepted. Different lists make different paths, and the paths below
a path are those of the lists that go on after its own. -/
theorem paths_by_segments :
    (∀ path names, split path = .ok names → joinAll "" names = path) ∧
    (∀ names, names ≠ [] → (∀ name ∈ names, IsSegment name) →
      split (joinAll "" names) = .ok names) ∧
    (∀ path, (¬ ∃ names, names ≠ [] ∧ (∀ name ∈ names, IsSegment name) ∧
      joinAll "" names = path) → ∃ fault, split path = .error fault) ∧
    (∀ names others, (∀ name ∈ names, IsSegment name) → (∀ name ∈ others, IsSegment name) →
      names ≠ others → joinAll "" names ≠ joinAll "" others) ∧
    ∀ p q names others, split p = .ok names → split q = .ok others →
      ((∃ rest, rest ≠ "" ∧ q = p ++ "/" ++ rest) ↔
        ∃ more, more ≠ [] ∧ others = names ++ more) := by
  refine ⟨fun path names h => joinAll_of_split_eq_ok h, fun names => split_joinAll,
    fun path hother => ?_, fun names others h h' hne hjoin => ?_,
    fun p q names others hp hq => exists_below_iff hp hq⟩
  · cases hsplit : split path with
    | error fault => exact ⟨fault, rfl⟩
    | ok names => exact absurd ⟨names, split_eq_ok_iff.mp hsplit⟩ hother
  · exact hne (joinAll_root_injective (fun name hname => (h name hname).1)
      (fun name hname => (h' name hname).1) hjoin)

/-- A role, a role below it, and a path with the reserved name on it. -/
theorem paths_by_segments_roles :
    split "web" = .ok ["web"] ∧ split "web/api" = .ok ["web", "api"] ∧
    joinAll "" ["web", "api"] = "web/api" ∧
    (∃ rest, rest ≠ "" ∧ "web/api" = "web" ++ "/" ++ rest) ∧
    split "web/." = .error .reservedSegment := by
  obtain ⟨hback, -, -, -, hbelow⟩ := paths_by_segments
  have hweb : split "web" = .ok ["web"] := by decide +kernel
  have hapi : split "web/api" = .ok ["web", "api"] := by decide +kernel
  exact ⟨hweb, hapi, hback _ _ hapi, (hbelow _ _ _ _ hweb hapi).mpr ⟨["api"], by simp, rfl⟩,
    by decide +kernel⟩

end RoleLottery.RolePath
