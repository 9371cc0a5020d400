import Mathlib.Data.List.Forall2
import RoleLottery.Json.Number
import RoleLottery.Json.Parser
import RoleLottery.Proofs.Json.Scanning

/-!
# Reading what was written

A written text is divided into the tokens of the value that it writes, and the reader builds that
value of them, inside whatever containers it stands.
-/

namespace RoleLottery.Json

variable {β : Type} {cs rest text : List Char} {t : Token} {ts us vs : List Token} {j : Json}

/-! ## Tokens -/

/-- A text without white space between its tokens. -/
inductive Lexed : List Char → List Token → Prop
  | nil : Lexed [] []
  | cons {c : Char} {cs rest : List Char} {t : Token} {ts : List Token} :
    isSpace c = false → scanToken? (c :: cs) = some (t, rest) → rest.length ≤ cs.length →
    Lexed rest ts → Lexed (c :: cs) (t :: ts)

theorem Lexed.tokenizeWithin_eq (h : Lexed cs ts) {steps : Nat} (hsteps : cs.length ≤ steps)
    (found : List Token) : tokenizeWithin steps found cs = some (found.reverse ++ ts) := by
  induction h generalizing steps found with
  | nil => rw [tokenizeWithin, List.append_nil]
  | @cons c cs rest t ts hspace hscan hrest h ih =>
    cases steps with
    | zero => exact absurd hsteps (Nat.not_succ_le_zero cs.length)
    | succ steps =>
      rw [List.length_cons] at hsteps
      have hsteps : rest.length ≤ steps := by omega
      rw [tokenizeWithin, hspace, if_neg Bool.false_ne_true, hscan]
      dsimp only
      rw [ih hsteps, List.reverse_cons, List.append_assoc, List.singleton_append]

theorem Lexed.tokenize_eq (h : Lexed cs ts) : tokenize cs = some ts :=
  h.tokenizeWithin_eq (Nat.le_refl cs.length) []

theorem Lexed.mark {c : Char} (hspace : isSpace c = false)
    (hscan : scanToken? (c :: rest) = some (t, rest)) (h : Lexed rest ts) :
    Lexed (c :: rest) (t :: ts) :=
  .cons hspace hscan (Nat.le_refl _) h

theorem Lexed.append {c : Char} (hspace : isSpace c = false)
    (hscan : scanToken? (c :: cs ++ rest) = some (t, rest)) (h : Lexed rest ts) :
    Lexed (c :: cs ++ rest) (t :: ts) :=
  .cons hspace hscan (by simp) h

theorem Lexed.quote (s : String) (h : Lexed rest ts) :
    Lexed ((Json.quote s).toList ++ rest) (.leaf (.string (some s)) :: ts) := by
  have hquote : (Json.quote s).toList = '"' :: (s.toList.flatMap escape ++ ['"']) := by
    simp [Json.quote]
  have hscan := scanToken?_quote s rest
  rw [hquote] at hscan ⊢
  exact h.append rfl hscan

/-- The text of the tokens, in front of whatever may follow a value. -/
def Lexes (text : List Char) (us : List Token) : Prop :=
  ∀ rest ts, Stops rest → Lexed rest ts → Lexed (text ++ rest) (us ++ ts)

/-! ## Values -/

/-- The tokens take the reader from one state to another. -/
def State.Run (s : State) (ts : List Token) (s' : State) : Prop := ts.foldlM State.step? s = some s'

variable {s s' s'' : State}

theorem State.Run.cons (h : s.step? t = some s') (hts : s'.Run ts s'') : s.Run (t :: ts) s'' := by
  rw [State.Run, List.foldlM_cons, h]
  exact hts

theorem State.Run.one (h : s.step? t = some s') : s.Run [t] s' := .cons h rfl

theorem State.Run.append (hus : s.Run us s') (hvs : s'.Run vs s'') : s.Run (us ++ vs) s'' := by
  rw [State.Run, List.foldlM_append, hus]
  exact hvs

theorem State.Run.exists_step (h : s.Run (t :: ts) s'') :
    ∃ s', s.step? t = some s' ∧ s'.Run ts s'' :=
  Option.bind_eq_some_iff.mp h

/-- The text is divided into tokens of which a reader that waits for a value makes this one. -/
def Writes (text : List Char) (j : Json) : Prop :=
  ∃ us, Lexes text us ∧ ∀ frames, State.Run ⟨.value, frames⟩ us ⟨.separator j, frames⟩

theorem Writes.parse? {s : String} (h : Writes s.toList j) : Json.parse? s = some j := by
  obtain ⟨us, hlexes, hrun⟩ := h
  have htokens := (hlexes [] [] (by simp [Stops]) .nil).tokenize_eq
  rw [List.append_nil, List.append_nil] at htokens
  have hread : us.foldlM State.step? ⟨.value, []⟩ = some ⟨.separator j, []⟩ := hrun []
  simp [Json.parse?, htokens, hread]

theorem writes_leaf (h : Lexes text [.leaf j]) : Writes text j := ⟨[.leaf j], h, fun _ => rfl⟩

theorem writes_quote (s : String) : Writes (quote s).toList (.string (some s)) :=
  writes_leaf fun _ _ _ h => h.quote s

theorem writes_writeBool (b : Bool) : Writes (writeBool b).toList (.bool b) := by
  refine writes_leaf fun rest ts _ h => ?_
  cases b with
  | false =>
    have hword : Lexed ('f' :: "alse".toList ++ rest) (.leaf (.bool false) :: ts) :=
      h.append rfl rfl
    exact hword
  | true =>
    have hword : Lexed ('t' :: "rue".toList ++ rest) (.leaf (.bool true) :: ts) :=
      h.append rfl rfl
    exact hword

theorem exists_of_scanNumeral? {n : Numeral × List Char} (h : scanNumeral? text = some n) :
    ∃ c cs, text = c :: cs ∧ (c = '-' ∨ c.isDigit = true) := by
  rw [scanNumeral?_eq] at h
  cases text with
  | nil => simp [starts, scanUnsigned?] at h
  | cons c cs =>
    refine ⟨c, cs, rfl, ?_⟩
    by_cases hminus : c = '-'
    · exact .inl hminus
    · right
      rw [starts_cons, beq_false_of_ne hminus, scanUnsigned?] at h
      by_contra hdigit
      simp [hdigit] at h

theorem scanToken?_eq_scanNumeral? {c : Char} (h : c = '-' ∨ c.isDigit = true) :
    scanToken? (c :: cs) = (scanNumeral? (c :: cs)).map fun n => (.leaf (.number n.1), n.2) := by
  unfold scanToken?
  split <;> simp_all

theorem isSpace_of_isDigit {c : Char} (h : c.isDigit = true) : isSpace c = false := by
  refine Bool.eq_false_iff.mpr fun hspace => ?_
  simp only [isSpace, Bool.or_eq_true, beq_iff_eq] at hspace
  rcases hspace with ((rfl | rfl) | rfl) | rfl <;> simp at h

theorem writes_numeral {n : Numeral} (h : scanNumeral? text = some (n, [])) :
    Writes text (.number n) := by
  obtain ⟨c, cs, rfl, hc⟩ := exists_of_scanNumeral? h
  refine writes_leaf fun rest ts hrest hts => hts.append ?_ ?_
  · rcases hc with rfl | hc
    · rfl
    · exact isSpace_of_isDigit hc
  · have hscan := scanNumeral?_append hrest h
    rw [List.cons_append] at hscan ⊢
    rw [scanToken?_eq_scanNumeral? hc, hscan]
    rfl

/-! ## Containers -/

/-- How the reader goes through the parts of a container. Parts that were found stand with the last
one first. -/
structure Container (γ : Type) where
  opening : Char
  closing : Char
  openToken : Token
  closeToken : Token
  /-- There is nothing yet but the opening bracket. -/
  first : List Frame → State
  /-- Another part has to come. -/
  waiting : List γ → List Frame → State
  /-- A part is complete. -/
  filled : γ → List γ → List Frame → State
  whole : List γ → Json
  isSpace_opening : isSpace opening = false
  isSpace_closing : isSpace closing = false
  scan_opening (rest : List Char) : scanToken? (opening :: rest) = some (openToken, rest)
  scan_closing (rest : List Char) : scanToken? (closing :: rest) = some (closeToken, rest)
  stops_closing (rest : List Char) : Stops (closing :: rest)
  step_opening (frames : List Frame) : State.step? ⟨.value, frames⟩ openToken = some (first frames)
  step_empty (frames : List Frame) :
    State.step? (first frames) closeToken = some ⟨.separator (whole []), frames⟩
  step_first (frames : List Frame) (t : Token) (s : State) :
    State.step? (waiting [] frames) t = some s → State.step? (first frames) t = some s
  step_comma (x : γ) (found : List γ) (frames : List Frame) :
    State.step? (filled x found frames) .comma = some (waiting (x :: found) frames)
  step_closing (x : γ) (found : List γ) (frames : List Frame) :
    State.step? (filled x found frames) closeToken =
      some ⟨.separator (whole (x :: found).reverse), frames⟩

namespace Container

variable {γ : Type} {C : Container γ} {texts : List (List Char)} {xs : List γ} {x : γ}

def Part (C : Container γ) (text : List Char) (x : γ) : Prop :=
  ∃ u us, Lexes text (u :: us) ∧
    ∀ found frames, (C.waiting found frames).Run (u :: us) (C.filled x found frames)

theorem stops_rest (rest : List Char) :
    Stops (texts.flatMap ([','] ++ ·) ++ C.closing :: rest) := by
  cases texts with
  | nil => exact C.stops_closing rest
  | cons text texts => exact fun c hc => .inl (Option.some.inj hc).symm

/-- After a complete part come the others, and then the container is complete. -/
theorem run_rest (h : List.Forall₂ C.Part texts xs) :
    ∃ us, (∀ rest ts, Lexed rest ts →
        Lexed (texts.flatMap ([','] ++ ·) ++ C.closing :: rest) (us ++ ts)) ∧
      ∀ x found frames, (C.filled x found frames).Run us
        ⟨.separator (C.whole (found.reverse ++ x :: xs)), frames⟩ := by
  induction h with
  | nil =>
    refine ⟨[C.closeToken], fun rest ts hts => ?_, fun x found frames => .one ?_⟩
    · exact .mark C.isSpace_closing (C.scan_closing rest) hts
    · rw [C.step_closing, List.reverse_cons]
  | @cons text y texts xs hpart h ih =>
    obtain ⟨u, us, hlexes, hrun⟩ := hpart
    obtain ⟨vs, hlexed, hrest⟩ := ih
    refine ⟨.comma :: (u :: us ++ vs), fun rest ts hts => ?_, fun x found frames => ?_⟩
    · have hafter := hlexes _ _ (stops_rest rest) (hlexed rest ts hts)
      rw [← List.append_assoc (u :: us)] at hafter
      rw [List.flatMap_cons, List.append_assoc, List.append_assoc]
      exact .mark rfl rfl hafter
    · have hlast := hrest y (x :: found) frames
      rw [List.reverse_cons, List.append_assoc, List.singleton_append] at hlast
      exact .cons (C.step_comma x found frames) ((hrun _ frames).append hlast)

theorem intercalate_cons (separator text : List Char) (texts : List (List Char)) :
    separator.intercalate (text :: texts) = text ++ texts.flatMap (separator ++ ·) := by
  induction texts generalizing text with
  | nil => simp
  | cons text' texts ih =>
    rw [List.intercalate_cons_cons, ih, List.flatMap_cons, List.append_assoc, List.append_assoc]

theorem writes (h : List.Forall₂ C.Part texts xs) :
    Writes (C.opening :: ([','].intercalate texts ++ [C.closing])) (C.whole xs) := by
  cases h with
  | nil =>
    refine ⟨[C.openToken, C.closeToken], fun rest ts _ hts => ?_, fun frames => ?_⟩
    · exact .mark C.isSpace_opening (C.scan_opening _)
        (.mark C.isSpace_closing (C.scan_closing rest) hts)
    · exact .cons (C.step_opening frames) (.one (C.step_empty frames))
  | @cons text x texts xs hpart h =>
    obtain ⟨u, us, hlexes, hrun⟩ := hpart
    obtain ⟨vs, hlexed, hrest⟩ := run_rest h
    refine ⟨C.openToken :: (u :: us ++ vs), fun rest ts _ hts => ?_, fun frames => ?_⟩
    · have hafter := hlexes _ _ (stops_rest rest) (hlexed rest ts hts)
      rw [← List.append_assoc (u :: us)] at hafter
      rw [intercalate_cons, List.cons_append, List.append_assoc, List.append_assoc]
      exact .mark C.isSpace_opening (C.scan_opening _) hafter
    · -- The first part is read where the container might still end, with the same steps.
      obtain ⟨s, hstep, hafter⟩ := (hrun [] frames).exists_step
      have hfirst : (C.first frames).Run (u :: us) (C.filled x [] frames) :=
        .cons (C.step_first frames u s hstep) hafter
      exact .cons (C.step_opening frames) (hfirst.append (hrest x [] frames))

end Container

/-! ## Arrays and objects -/

def items : Container Json where
  opening := '['
  closing := ']'
  openToken := .openArray
  closeToken := .closeArray
  first frames := ⟨.firstItem, .items [] :: frames⟩
  waiting found frames := ⟨.value, .items found :: frames⟩
  filled j found frames := ⟨.separator j, .items found :: frames⟩
  whole := .array
  isSpace_opening := rfl
  isSpace_closing := rfl
  scan_opening _ := rfl
  scan_closing _ := rfl
  stops_closing _ := by simp [Stops]
  step_opening _ := rfl
  step_empty _ := rfl
  step_first _ t _ h := by cases t <;> first | exact h | cases h
  step_comma _ _ _ := rfl
  step_closing _ _ _ := rfl

def members : Container (Option String × Json) where
  opening := '\x7b'
  closing := '\x7d'
  openToken := .openObject
  closeToken := .closeObject
  first frames := ⟨.firstKey, .members [] :: frames⟩
  waiting found frames := ⟨.key, .members found :: frames⟩
  filled x found frames := ⟨.separator x.2, .member found x.1 :: frames⟩
  whole := .object
  isSpace_opening := rfl
  isSpace_closing := rfl
  scan_opening _ := rfl
  scan_closing _ := rfl
  stops_closing _ := by simp [Stops]
  step_opening _ := rfl
  step_empty _ := rfl
  step_first _ t _ h := by cases t <;> first | exact h | cases h
  step_comma _ _ _ := rfl
  step_closing _ _ _ := rfl

theorem part_items (h : Writes text j) : items.Part text j := by
  obtain ⟨us, hlexes, hrun⟩ := h
  cases us with
  | nil => cases hrun []
  | cons u us => exact ⟨u, us, hlexes, fun found frames => hrun _⟩

theorem part_members (key : String) (h : Writes text j) :
    members.Part ((quote key).toList ++ ':' :: text) (some key, j) := by
  obtain ⟨us, hlexes, hrun⟩ := h
  refine ⟨.leaf (.string (some key)), .colon :: us, fun rest ts hrest hts => ?_,
    fun found frames => .cons rfl (.cons rfl (hrun _))⟩
  have hvalue := hlexes rest ts hrest hts
  rw [List.append_assoc]
  exact .quote key (.mark rfl rfl hvalue)

theorem writes_writeArray {texts : List String} {js : List Json}
    (h : List.Forall₂ (fun text j => Writes text.toList j) texts js) :
    Writes (writeArray texts).toList (.array js) := by
  have hparts : List.Forall₂ items.Part (texts.map String.toList) js :=
    List.forall₂_map_left_iff.mpr (h.imp fun _ _ => part_items)
  have hwrites := Container.writes hparts
  simpa [writeArray, String.toList_intercalate, items] using hwrites

theorem writes_writeObject {texts : List (String × String)} {js : List (Option String × Json)}
    (h : List.Forall₂ (fun member j => j.1 = some member.1 ∧ Writes member.2.toList j.2) texts js) :
    Writes (writeObject texts).toList (.object js) := by
  have hparts : List.Forall₂ members.Part
      (texts.map fun member => (quote member.1).toList ++ ':' :: member.2.toList) js := by
    refine List.forall₂_map_left_iff.mpr (h.imp fun member j hj => ?_)
    obtain ⟨hkey, hvalue⟩ := hj
    have hpart := part_members member.1 hvalue
    rwa [← hkey] at hpart
  have hwrites := Container.writes hparts
  simpa [writeObject, String.toList_intercalate, members, Function.comp_def] using hwrites

/-! ## Reading back -/

/-- The text writes a value that is read as `x`. -/
def ReadsAs (read : Json → Option β) (text : String) (x : β) : Prop :=
  ∃ j, Writes text.toList j ∧ read j = some x

theorem readsAs_quote (s : String) : ReadsAs text? (quote s) s :=
  ⟨.string (some s), writes_quote s, rfl⟩

theorem readsAs_toString {n bound : Nat} (h : n ≤ bound) :
    ReadsAs (natUpTo? bound) (toString n) n := by
  refine ⟨.number ⟨false, Nat.toDigits 10 n, [], none⟩, writes_numeral ?_, ?_⟩
  · rw [show (toString n).toList = Nat.toDigits 10 n from Nat.toList_repr]
    exact scanNumeral?_toDigits n
  · have hdigits : Decimal.ofDigits (Nat.toDigits 10 n) = n := Nat.ofDigitChars_ten_toDigits
    simp [natUpTo?, numeral?, Numeral.natUpTo?, hdigits, h]

theorem ReadsAs.nullable {read : Json → Option β} {text : String} {x : β}
    (hnull : read .null = none) (h : ReadsAs read text x) :
    ReadsAs (nullable? read) text (some x) := by
  obtain ⟨j, hwrites, hread⟩ := h
  refine ⟨j, hwrites, ?_⟩
  cases j <;> simp_all [nullable?]

theorem ReadsAs.list {read : Json → Option β} {write : β → String} {xs : List β}
    (h : ∀ x ∈ xs, ReadsAs read (write x) x) :
    ReadsAs (list? read) (writeArray (xs.map write)) xs := by
  have hitems : ∃ js, List.Forall₂ (fun text j => Writes text.toList j) (xs.map write) js ∧
      js.mapM read = some xs := by
    induction xs with
    | nil => exact ⟨[], .nil, rfl⟩
    | cons x xs ih =>
      rw [List.forall_mem_cons] at h
      obtain ⟨j, hwrites, hread⟩ := h.1
      obtain ⟨js, hrest, hreads⟩ := ih h.2
      exact ⟨j :: js, .cons hwrites hrest, by simp [hread, hreads]⟩
  obtain ⟨js, hwrites, hreads⟩ := hitems
  exact ⟨.array js, writes_writeArray hwrites, hreads⟩

end RoleLottery.Json
