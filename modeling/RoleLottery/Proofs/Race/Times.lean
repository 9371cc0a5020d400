import RoleLottery.Proofs.Binary64.Doubles
import RoleLottery.Proofs.Race

/-!
# Times of a race

Every client with a positive weight takes one word of the generator, in turn, and the clients come
in the order of the times that these words give them. The others take no word, so a race without
them ends the same and leaves the generator the same to all later races.
-/

namespace RoleLottery.Race

variable {β ω γ : Type}

/-! ## Stable orders -/

/-- The list `sorted` has what `timed` has, by ascending places, and what shares a place in the
order of `timed`. -/
structure InOrder (place : β → Int) (timed sorted : List β) : Prop where
  perm : sorted.Perm timed
  ascending : sorted.Pairwise fun a b => place a ≤ place b
  stable : ∀ i, sorted.filter (place · = i) = timed.filter (place · = i)

theorem inOrder_mergeSort (place : β → Int) (timed : List β) :
    InOrder place timed (timed.mergeSort fun a b => place a ≤ place b) := by
  have htrans (a b c : β) : decide (place a ≤ place b) → decide (place b ≤ place c) →
      decide (place a ≤ place c) := by
    simp only [decide_eq_true_eq]
    omega
  have htotal (a b : β) : decide (place a ≤ place b) || decide (place b ≤ place a) := by
    simp only [Bool.or_eq_true, decide_eq_true_eq]
    omega
  have hperm := timed.mergeSort_perm fun a b => place a ≤ place b
  constructor
  case perm => exact hperm
  case ascending => simpa using List.pairwise_mergeSort htrans htotal timed
  case stable =>
    intro i
    -- What shares a place is in order as it is, so sorting keeps it as a sublist.
    have hsorted : (timed.filter (place · = i)).Pairwise fun a b => decide (place a ≤ place b) := by
      apply List.pairwise_of_forall_mem_list
      intro a ha b hb
      simp only [List.mem_filter, decide_eq_true_eq] at ha hb ⊢
      omega
    have hsub := (List.sublist_mergeSort htrans htotal hsorted List.filter_sublist).filter
      (place · = i)
    simp only [List.filter_filter, Bool.and_self] at hsub
    exact (hsub.eq_of_length (hperm.filter _).length_eq.symm).symm

/-! ## Words -/

section

variable [WordSource γ]

/-- The next words of a generator, and the generator that is left after them. -/
def words : Nat → γ → List UInt64 × γ
  | 0, g => ([], g)
  | n + 1, g =>
    let (word, g) := WordSource.next g
    let (rest, g) := words n g
    (word :: rest, g)

theorem length_words (n : Nat) (g : γ) : (words n g).1.length = n := by
  induction n generalizing g with
  | zero => rfl
  | succ n ih => simp [words, ih]

def placeOf [RaceTime ω] (e : UInt64 × String × ω) : Int := RaceTime.place e.1 e.2.2

/-- The entries get one word each, the first entry the first word, and no more are drawn. -/
theorem run_eq [RaceTime ω] (g : γ) (entries : List (String × ω)) : run g entries =
    (((words entries.length g).1.zip entries).map fun e => (placeOf e, e.2.1),
      (words entries.length g).2) := by
  induction entries generalizing g with
  | nil => rfl
  | cons e entries ih =>
    simp only [run, List.length_cons, words, ih, List.zip_cons_cons, List.map_cons]
    rfl

variable [Weight ω] [RaceTime ω]

def racers (clients : List String) (weights : List ω) : List (String × ω) :=
  (clients.zip weights).filter fun e => Weight.isPositive e.2

theorem shuffle_eq (clients : List String) (weights : List ω) (g : γ) :
    shuffle clients weights g =
      let drawn := words (racers clients weights).length g
      (((drawn.1.zip (racers clients weights)).mergeSort fun a b => placeOf a ≤ placeOf b).map
        (·.2.1), drawn.2) := by
  simp only [shuffle, run_eq]
  rw [← List.map_mergeSort (r := fun a b => decide (placeOf a ≤ placeOf b)) (by simp), List.map_map]
  rfl

/-! ## One race after the other -/

/-- The results of races that share a generator, each with clients and weights of its own. -/
def shuffles : List (List String × List ω) → γ → List (List String) × γ
  | [], g => ([], g)
  | (clients, weights) :: later, g =>
    let (order, g) := shuffle clients weights g
    let (orders, g) := shuffles later g
    (order :: orders, g)

theorem shuffle_congr {clients clients' : List String} {weights weights' : List ω}
    (h : racers clients' weights' = racers clients weights) (g : γ) :
    shuffle clients' weights' g = shuffle clients weights g := by
  rw [shuffle_eq, shuffle_eq, h]

theorem shuffles_congr {inputs inputs' : List (List String × List ω)}
    (h : List.Forall₂ (fun a b => racers b.1 b.2 = racers a.1 a.2) inputs inputs') (g : γ) :
    shuffles inputs' g = shuffles inputs g := by
  induction h generalizing g with
  | nil => rfl
  | cons hracers _ ih => simp only [shuffles, shuffle_congr hracers, ih]

end

/-! ## Races by doubles -/

/-- The clients and weights without the entries whose weight is zero, negative or not a number. -/
def withoutIdle (input : List String × List Float) : List String × List Float :=
  ((input.1.zip input.2).filter fun e => ¬ (e.2 == 0 ∨ e.2 < 0 ∨ e.2.isNaN)).unzip

theorem racers_withoutIdle (input : List String × List Float) :
    racers (withoutIdle input).1 (withoutIdle input).2 = racers input.1 input.2 := by
  unfold racers withoutIdle
  rw [List.zip_unzip, List.filter_filter]
  apply List.filter_congr
  intro e _
  have hpositive : Weight.isPositive e.2 = decide (0 < e.2) := rfl
  simp only [hpositive, ← Binary64.pos_iff, Bool.and_self]

variable [WordSource γ]

/-- A race has the clients with positive weights as its result, by ascending times in the total
order of doubles, with equal times in the order of the input. The words of the times are drawn one
for each of these clients, in turn. Without the other entries, in any of the races that share a
generator, all results and the generator that is left are the same. -/
theorem shuffle_by_times (clients : List String) (weights : List Float) (g : γ) :
    let racers := (clients.zip weights).filter fun e => 0 < e.2
    let drawn := words racers.length g
    (shuffle clients weights g).1.Perm (racers.map (·.1)) ∧
    (∃ sorted, InOrder (fun e => Binary64.rank (raceTime e.1 e.2.2)) (drawn.1.zip racers) sorted ∧
      shuffle clients weights g = (sorted.map (·.2.1), drawn.2)) ∧
    drawn.1.length = racers.length ∧
    shuffle (withoutIdle (clients, weights)).1 (withoutIdle (clients, weights)).2 g =
      shuffle clients weights g ∧
    ∀ inputs inputs', List.Forall₂ (fun a b => b = a ∨ b = withoutIdle a) inputs inputs' →
      shuffles inputs' g = shuffles inputs g := by
  intro racers drawn
  have hshuffle : shuffle clients weights g = (((drawn.1.zip racers).mergeSort
      fun a b => placeOf a ≤ placeOf b).map (·.2.1), drawn.2) := shuffle_eq clients weights g
  have horder := inOrder_mergeSort placeOf (drawn.1.zip racers)
  have hlength : drawn.1.length = racers.length := length_words racers.length g
  refine ⟨?_, ⟨_, horder, hshuffle⟩, hlength, ?_, fun inputs inputs' h => ?_⟩
  · rw [hshuffle]
    have hclients : (drawn.1.zip racers).map (·.2.1) = racers.map (·.1) := by
      change (drawn.1.zip racers).map (Prod.fst ∘ Prod.snd) = _
      rw [← List.map_map, List.map_snd_zip hlength.ge]
    exact hclients ▸ horder.perm.map _
  · exact shuffle_congr (racers_withoutIdle (clients, weights)) g
  · apply shuffles_congr
    apply h.imp
    intro a b hab
    rcases hab with rfl | rfl
    · rfl
    · exact racers_withoutIdle a

/-- Of three clients one has the weight zero and one has none that is a number. -/
theorem shuffle_by_times_idle :
    let input : List String × List Float := (["a", "b", "c"], [0, 2, 0 / 0])
    List.Forall₂ (fun a b => b = a ∨ b = withoutIdle a) [input, input] [withoutIdle input, input] ∧
    shuffles [withoutIdle input, input] (Keystream.ofSeed 1) =
      shuffles [input, input] (Keystream.ofSeed 1) := by
  intro input
  have hinputs : List.Forall₂ (fun a b => b = a ∨ b = withoutIdle a) [input, input]
      [withoutIdle input, input] := .cons (.inr rfl) (.cons (.inl rfl) .nil)
  obtain ⟨-, -, -, -, hlater⟩ := shuffle_by_times input.1 input.2 (Keystream.ofSeed 1)
  exact ⟨hinputs, hlater _ _ hinputs⟩

end RoleLottery.Race
