import Mathlib.Data.List.Perm.Basic

/-!
# Loops

A loop is given by what one turn of it does: it names what it works on and leads to another state,
or there is no further turn. A loop over a work stack works on the entry on top and pushes what
comes of it. When less and less comes of each entry, the loop ends, and it works on the entries in
the order of a walk.
-/

namespace RoleLottery.Loop

variable {σ τ ι β : Type}

/-- Turns lead from one state to another. The list names what they work on. -/
inductive Steps (turn : σ → Option (β × σ)) : σ → List β → σ → Prop
  | refl (s : σ) : Steps turn s [] s
  | head {s s' s'' : σ} {b : β} {bs : List β} :
    turn s = some (b, s') → Steps turn s' bs s'' → Steps turn s (b :: bs) s''

structure Ends (turn : σ → Option (β × σ)) (s : σ) (visited : List β) (final : σ) : Prop where
  steps : Steps turn s visited final
  last : turn final = none

section

variable {turn : σ → Option (β × σ)} {s s' s'' : σ} {bs cs : List β}

theorem Steps.trans (h : Steps turn s bs s') (h' : Steps turn s' cs s'') :
    Steps turn s (bs ++ cs) s'' := by
  induction h with
  | refl _ => exact h'
  | head hturn _ ih => exact .head hturn (ih h')

theorem Ends.head {b : β} (hturn : turn s = some (b, s')) (h : Ends turn s' bs s'') :
    Ends turn s (b :: bs) s'' :=
  ⟨.head hturn h.steps, h.last⟩

end

/-! ## Work stacks -/

/-- A turn of a loop over a work stack, whose top comes first: it pops an entry, and what the body
pushes first comes out last. -/
def pop (body : σ → ι → σ × List ι) : σ × List ι → Option (ι × σ × List ι)
  | (_, []) => none
  | (s, x :: stack) => some (x, (body s x).1, (body s x).2.reverse ++ stack)

/-- What comes of an entry, down to a depth, each entry before what comes of it. -/
def preorder (next : ι → List ι) : Nat → ι → List ι
  | 0, _ => []
  | depth + 1, x => x :: (next x).flatMap (preorder next depth)

theorem preorder_perm {next next' : ι → List ι} (h : ∀ x, (next x).Perm (next' x)) (depth : Nat)
    (x : ι) : (preorder next depth x).Perm (preorder next' depth x) := by
  induction depth generalizing x with
  | zero => exact .nil
  | succ depth ih => exact ((h x).flatMap fun y _ => ih y).cons x

/-- A turn acts on the entry on top of the stack and puts what comes of it in its place, from which
less comes than from the entry. -/
structure Working (turn : τ → Option (ι × τ)) (state : σ → List ι → τ) (act : σ → ι → σ)
    (next : ι → List ι) (inv : σ → Prop) (good : ι → Prop) (height : ι → Nat) : Prop where
  turn_eq : ∀ {s x}, inv s → good x → ∀ stack,
    turn (state s (x :: stack)) = some (x, state (act s x) (next x ++ stack))
  keeps : ∀ {s x}, inv s → good x → inv (act s x)
  down : ∀ {x}, good x → ∀ y ∈ next x, good y ∧ height y < height x

namespace Working

variable {turn : τ → Option (ι × τ)} {state : σ → List ι → τ} {act : σ → ι → σ}
  {next : ι → List ι} {inv : σ → Prop} {good : ι → Prop} {height : ι → Nat}

theorem keeps_foldl (h : Working turn state act next inv good height) {xs : List ι} {s : σ}
    (hs : inv s) (hxs : ∀ x ∈ xs, good x) : inv (xs.foldl act s) :=
  List.foldlRecOn xs act hs fun _ hs x hx => h.keeps hs (hxs x hx)

theorem good_of_mem_preorder (h : Working turn state act next inv good height) {depth : Nat}
    {x y : ι} (hx : good x) (hy : y ∈ preorder next depth x) : good y := by
  induction depth generalizing x with
  | zero => exact absurd hy List.not_mem_nil
  | succ depth ih =>
    rcases List.mem_cons.mp hy with rfl | hy
    · exact hx
    · obtain ⟨z, hz, hy⟩ := List.mem_flatMap.mp hy
      exact ih (h.down hx z hz).1 hy

/-- A stack of entries, each of which is worked off with all that comes of it before the next. -/
theorem steps_flatMap (h : Working turn state act next inv good height) {depth : Nat}
    {xs : List ι} (hxs : ∀ x ∈ xs, good x)
    (hone : ∀ x ∈ xs, ∀ {s}, inv s → ∀ stack, Steps turn (state s (x :: stack))
      (preorder next depth x) (state ((preorder next depth x).foldl act s) stack))
    {s : σ} (hs : inv s) (stack : List ι) : Steps turn (state s (xs ++ stack))
      (xs.flatMap (preorder next depth))
      (state ((xs.flatMap (preorder next depth)).foldl act s) stack) := by
  induction xs generalizing s with
  | nil => exact .refl _
  | cons x xs ih =>
    obtain ⟨hx, hxs⟩ := List.forall_mem_cons.mp hxs
    obtain ⟨hfirst, hrest⟩ := List.forall_mem_cons.mp hone
    have hinv : inv ((preorder next depth x).foldl act s) :=
      h.keeps_foldl hs fun _ hy => h.good_of_mem_preorder hx hy
    rw [List.flatMap_cons, List.foldl_append]
    exact (hfirst hs (xs ++ stack)).trans (ih hxs hrest hinv)

theorem steps (h : Working turn state act next inv good height) {depth : Nat} {x : ι}
    (hx : good x) (hdepth : height x < depth) {s : σ} (hs : inv s) (stack : List ι) :
    Steps turn (state s (x :: stack)) (preorder next depth x)
      (state ((preorder next depth x).foldl act s) stack) := by
  induction depth generalizing x s stack with
  | zero => exact absurd hdepth (Nat.not_lt_zero _)
  | succ depth ih =>
    refine .head (h.turn_eq hs hx stack) (h.steps_flatMap (fun y hy => (h.down hx y hy).1) ?_
      (h.keeps hs hx) stack)
    intro y hy s hs stack
    obtain ⟨hgood, hlt⟩ := h.down hx y hy
    exact ih hgood (by omega) hs stack

theorem ends (h : Working turn state act next inv good height)
    (hlast : ∀ s, turn (state s []) = none) {depth : Nat} {x : ι} (hx : good x)
    (hdepth : height x < depth) {s : σ} (hs : inv s) :
    Ends turn (state s [x]) (preorder next depth x)
      (state ((preorder next depth x).foldl act s) []) :=
  ⟨h.steps hx hdepth hs [], hlast _⟩

end Working

end RoleLottery.Loop
