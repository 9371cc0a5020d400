import RoleLottery.Lottery.Basic

/-!
# Calls on a lottery

A run is a list of calls in any order, those that fail included. Each call has a reply, and the
next one finds the state that it leaves. Two systems whose replies agree call by call, for states
that correspond, agree over whole runs.
-/

namespace RoleLottery

/-! ## Runs of any system -/

section Run

variable {σ τ κ ε ρ υ : Type}

/-- The reply to a call with the state after it. A call that fails leaves the state as it was. -/
def step (attempt : σ → κ → Except ε (ρ × σ)) (s : σ) (c : κ) : Except ε ρ × σ :=
  match attempt s c with
  | .ok (reply, s') => (.ok reply, s')
  | .error e => (.error e, s)

def run (attempt : σ → κ → Except ε (ρ × σ)) (s : σ) : List κ → List (Except ε ρ) × σ
  | [] => ([], s)
  | c :: calls =>
    let (reply, s') := step attempt s c
    let (replies, last) := run attempt s' calls
    (reply :: replies, last)

/-- Both attempts fail with the same error, or both succeed, in states that correspond, and what the
first returns shows as what the second returns. -/
inductive Agree (shown : ρ → υ) (R : σ → τ → Prop) :
    Except ε (ρ × σ) → Except ε (υ × τ) → Prop
  | ok {reply : ρ} {s : σ} {t : τ} : R s t → Agree shown R (.ok (reply, s)) (.ok (shown reply, t))
  | error (e : ε) : Agree shown R (.error e) (.error e)

variable {attempt : σ → κ → Except ε (ρ × σ)} {attempt' : τ → κ → Except ε (υ × τ)}

theorem step_agree {shown : ρ → υ} {R : σ → τ → Prop} {s : σ} {t : τ} {c : κ} (hst : R s t)
    (h : Agree shown R (attempt s c) (attempt' t c)) :
    (step attempt s c).1.map shown = (step attempt' t c).1 ∧
      R (step attempt s c).2 (step attempt' t c).2 := by
  unfold step
  generalize attempt s c = x at h ⊢
  generalize attempt' t c = y at h ⊢
  cases h with
  | ok h => exact ⟨rfl, h⟩
  | error e => exact ⟨rfl, hst⟩

/-- States that correspond and stay so after each call give the same replies over a run. -/
theorem run_agree {shown : ρ → υ} {R : σ → τ → Prop}
    (hstep : ∀ s t c, R s t → Agree shown R (attempt s c) (attempt' t c)) {s : σ} {t : τ}
    (hst : R s t) (calls : List κ) :
    (run attempt s calls).1.map (Except.map shown) = (run attempt' t calls).1 ∧
      R (run attempt s calls).2 (run attempt' t calls).2 := by
  induction calls generalizing s t with
  | nil => exact ⟨rfl, hst⟩
  | cons c calls ih =>
    obtain ⟨hreply, hnext⟩ := step_agree hst (hstep s t c hst)
    obtain ⟨hreplies, hlast⟩ := ih hnext
    constructor
    · simp only [run, List.map_cons, hreply, hreplies]
    · exact hlast

theorem run_keeps {P : σ → Prop} {s : σ} {calls : List κ}
    (hstep : ∀ c ∈ calls, ∀ s reply s', P s → attempt s c = .ok (reply, s') → P s') (h : P s) :
    P (run attempt s calls).2 := by
  induction calls generalizing s with
  | nil => exact h
  | cons c calls ih =>
    obtain ⟨hc, hcalls⟩ := List.forall_mem_cons.mp hstep
    have hnext : P (step attempt s c).2 := by
      unfold step
      split
      · rename_i reply s' hattempt
        exact hc s reply s' h hattempt
      · exact h
    exact ih hcalls hnext

theorem Agree.and {shown : ρ → υ} {P : σ → Prop} {R : σ → τ → Prop} {x : Except ε (ρ × σ)}
    {y : Except ε (υ × τ)} (hP : ∀ reply s, x = .ok (reply, s) → P s) (h : Agree shown R x y) :
    Agree shown (fun s t => P s ∧ R s t) x y := by
  cases h with
  | ok h => exact Agree.ok ⟨hP _ _ rfl, h⟩
  | error e => exact Agree.error e

def outcome (r : Except ε ρ) : Except ε Unit := r.map fun _ => ()

theorem Agree.outcome_eq {shown : ρ → υ} {R : σ → τ → Prop} {x : Except ε (ρ × σ)}
    {y : Except ε (υ × τ)} (h : Agree shown R x y) : outcome x = outcome y := by
  cases h <;> rfl

theorem Agree.of_map_eq {f : σ → τ} {x y : Except ε (ρ × σ)}
    (h : x.map (Prod.map id f) = y.map (Prod.map id f)) :
    Agree id (fun s s' => f s = f s') x y := by
  cases x with
  | error e =>
    cases y with
    | error e' =>
      obtain rfl := Except.error.inj h
      exact Agree.error e
    | ok b => cases h
  | ok a =>
    cases y with
    | error e' => cases h
    | ok b =>
      obtain ⟨reply, s⟩ := a
      obtain ⟨reply', s'⟩ := b
      obtain ⟨rfl, hs⟩ := Prod.ext_iff.mp (Except.ok.inj h)
      exact Agree.ok hs

/-! ## Calls left out -/

def repliesTo (keep : κ → Bool) (calls : List κ) (replies : List ρ) : List ρ :=
  ((calls.zip replies).filter fun e => keep e.1).map (·.2)

theorem repliesTo_cons (keep : κ → Bool) (c : κ) (calls : List κ) (reply : ρ) (replies : List ρ) :
    repliesTo keep (c :: calls) (reply :: replies) =
      if keep c then reply :: repliesTo keep calls replies else repliesTo keep calls replies := by
  unfold repliesTo
  rw [List.zip_cons_cons, List.filter_cons]
  split <;> rfl

/-- When the calls that are kept agree in states that correspond, and the others keep states
corresponding, the replies to the former are the same without the latter. -/
theorem run_filter {R : σ → τ → Prop} {attempt' : τ → κ → Except ε (ρ × τ)} {keep : κ → Bool}
    (hkeep : ∀ s t c, keep c = true → R s t → Agree id R (attempt s c) (attempt' t c))
    (hskip : ∀ s t c reply s', keep c = false → R s t → attempt s c = .ok (reply, s') → R s' t)
    {s : σ} {t : τ} (hst : R s t) (calls : List κ) :
    repliesTo keep calls (run attempt s calls).1 = (run attempt' t (calls.filter keep)).1 ∧
      R (run attempt s calls).2 (run attempt' t (calls.filter keep)).2 := by
  induction calls generalizing s t with
  | nil => exact ⟨rfl, hst⟩
  | cons c calls ih =>
    cases hc : keep c with
    | true =>
      obtain ⟨hreply, hnext⟩ := step_agree hst (hkeep s t c hc hst)
      obtain ⟨hreplies, hlast⟩ := ih hnext
      rw [Except.map_id, id] at hreply
      rw [List.filter_cons_of_pos hc]
      refine ⟨?_, hlast⟩
      simp only [run, repliesTo_cons, hc, if_true, hreply, hreplies]
    | false =>
      have hnext : R (step attempt s c).2 t := by
        unfold step
        split
        · rename_i reply s' hattempt
          exact hskip s t c reply s' hc hst hattempt
        · exact hst
      obtain ⟨hreplies, hlast⟩ := ih hnext
      rw [List.filter_cons_of_neg (by simp [hc])]
      refine ⟨?_, hlast⟩
      simpa only [run, repliesTo_cons, hc, Bool.false_eq_true, if_false] using hreplies

end Run

/-! ## Lotteries -/

inductive Call (α ω : Type)
  | add (client : String)
  | remove (client : String)
  | activate (client : String)
  | deactivate (client : String)
  | setWeight (path : String) (weight : ω)
  | allocate (client agent : String) (bundle : Bundle α)
  | release (client agent : String) (bundle : Bundle α)
  | replace (client agent : String) (old new : Bundle α)
  | addAgent (agent : String) (capacity : Quantities α)
  | removeAgent (agent : String)
  | exclude (excluded : Option Labels)
  | draw

namespace Lottery

variable {α ω γ : Type} [Amount α] [Weight ω] [RaceTime ω] [WordSource γ]

def silent {ε σ : Type} (r : Except ε σ) : Except ε (List String × σ) := r.map ([], ·)

theorem eq_of_silent {ε σ : Type} {r : Except ε σ} {order : List String} {s : σ}
    (h : silent r = .ok (order, s)) : r = .ok s := by
  cases r with
  | error e => exact absurd h (by simp [silent, Except.map])
  | ok s' => simp_all [silent, Except.map]

/-- What a call does. Only a draw returns something, the order of the clients. -/
def attempt (l : Lottery α ω γ) :
    Call α ω → Except (LotteryError α ω) (List String × Lottery α ω γ)
  | .add client => silent (l.add client)
  | .remove client => silent (l.remove client)
  | .activate client => silent (l.activate client)
  | .deactivate client => silent (l.deactivate client)
  | .setWeight path weight => silent (l.setWeight path weight)
  | .allocate client agent bundle => silent (l.allocate client agent bundle)
  | .release client agent bundle => silent (l.release client agent bundle)
  | .replace client agent old new => silent (l.replace client agent old new)
  | .addAgent agent capacity => .ok ([], l.addAgent agent capacity)
  | .removeAgent agent => .ok ([], l.removeAgent agent)
  | .exclude excluded => .ok ([], l.exclude excluded)
  | .draw => .ok l.draw

theorem weights_attempt {l l' : Lottery α ω γ} {c : Call α ω} {order : List String}
    (hl : l.attempt c = .ok (order, l')) : l'.weights = l.weights ∨
      ∃ path weight names, RolePath.split path = .ok names ∧ Weight.isFinite weight = true ∧
        Weight.lt weight Weight.zero = false ∧ l'.weights = l.weights.insert path weight := by
  have hactivity {client : String} {active : Bool} (hl : l.setActivity client active = .ok l') :
      l'.weights = l.weights := by
    unfold setActivity at hl
    split at hl <;> cases hl <;> rfl
  cases c with
  | add client =>
    have hadd := eq_of_silent hl
    unfold Lottery.add at hadd
    split at hadd <;> cases hadd
    exact .inl rfl
  | remove client =>
    have hremove := eq_of_silent hl
    unfold Lottery.remove at hremove
    split at hremove <;> cases hremove
    exact .inl rfl
  | activate client => exact .inl (hactivity (eq_of_silent hl))
  | deactivate client => exact .inl (hactivity (eq_of_silent hl))
  | setWeight path weight =>
    have hset := eq_of_silent hl
    unfold Lottery.setWeight at hset
    split at hset
    · cases hset
    · rename_i names hnames
      split at hset
      · cases hset
      · rename_i hweight
        cases hset
        simp only [Bool.or_eq_true, Bool.not_eq_true', not_or, Bool.not_eq_false,
          Bool.not_eq_true] at hweight
        exact .inr ⟨path, weight, names, hnames, hweight.1, hweight.2, rfl⟩
  | allocate client agent bundle =>
    have hallocate := eq_of_silent hl
    unfold Lottery.allocate at hallocate
    split at hallocate <;> cases hallocate
    exact .inl rfl
  | release client agent bundle =>
    have hrelease := eq_of_silent hl
    unfold Lottery.release at hrelease
    split at hrelease
    · cases hrelease
    · split at hrelease <;> cases hrelease
      exact .inl rfl
  | replace client agent old new =>
    have hreplace := eq_of_silent hl
    unfold Lottery.replace at hreplace
    split at hreplace
    · cases hreplace
    · split at hreplace <;> cases hreplace
      exact .inl rfl
  | addAgent agent capacity =>
    cases hl
    exact .inl rfl
  | removeAgent agent =>
    cases hl
    exact .inl rfl
  | exclude excluded =>
    cases hl
    exact .inl rfl
  | draw =>
    cases hl
    exact .inl rfl

def after (settings : Settings) (g : γ) (calls : List (Call α ω)) : Lottery α ω γ :=
  (run attempt (start settings g) calls).2

def replies (settings : Settings) (g : γ) (calls : List (Call α ω)) :
    List (Except (LotteryError α ω) (List String)) :=
  (run attempt (start settings g) calls).1

end Lottery

end RoleLottery
