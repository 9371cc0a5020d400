import Mathlib.Data.List.Basic
import Mathlib.Data.List.TakeWhile
import RoleLottery.Json.Token
import RoleLottery.Json.Writer

/-!
# Scanning what was written

Quoted strings and numbers are scanned as they were written, whatever follows that cannot be a part
of them.
-/

namespace RoleLottery.Json

variable {c d : Char} {cs rest : List Char} {found : List Piece}

/-! ## Strings -/

def piece (c : Char) : Piece :=
  if c.toNat < 0x20 ∧ c ∉ ['\x08', '\x0c', '\n', '\r', '\t'] then .unit c.toNat else .char c

theorem hexValue?_hexDigitOf :
    ∀ n < 0x20, hexValue? ['0', '0', hexDigitOf (n / 16), hexDigitOf (n % 16)] = some n := by
  decide

theorem scanString_escape (c : Char) (found : List Piece) (rest : List Char) :
    scanString found (escape c ++ rest) = scanString (piece c :: found) rest := by
  unfold escape
  split
  · rfl
  · rfl
  · rfl
  · rfl
  · rfl
  · rfl
  · rfl
  · rename_i hquote hbackslash hb hf hn hr ht
    split
    · rename_i hcontrol
      have hpiece : piece c = .unit c.toNat := by
        simp only [piece, hcontrol, List.mem_cons, List.not_mem_nil, true_and, or_false, not_or]
        exact if_pos ⟨hb, hf, hn, hr, ht⟩
      simp only [List.cons_append, List.nil_append, scanString,
        hexValue?_hexDigitOf c.toNat hcontrol]
      rw [hpiece]
    · rename_i hcontrol
      have hpiece : piece c = .char c := by simp [piece, hcontrol]
      rw [hpiece, List.singleton_append, scanString, if_neg hcontrol]
      · exact hquote
      · exact fun a b c' d rest' hc _ => hbackslash hc
      · exact fun c' rest' hc _ => hbackslash hc

theorem scanString_flatMap_escape (cs : List Char) (found : List Piece) (rest : List Char) :
    scanString found (cs.flatMap escape ++ '"' :: rest) =
      some (found.reverse ++ cs.map piece, rest) := by
  induction cs generalizing found with
  | nil => simp [scanString]
  | cons c cs ih => simp [scanString_escape, ih]

theorem assemble_unit {n : Nat} (hn : n < 0x20) (pieces : List Piece) :
    assemble (.unit n :: pieces) = (assemble pieces).map (Char.ofNat n :: ·) := by
  have hhigh : isHighSurrogate n = false := by simp [isHighSurrogate]; omega
  have hlow : isLowSurrogate n = false := by simp [isLowSurrogate]; omega
  cases pieces with
  | nil => simp [assemble, hhigh, hlow]
  | cons p pieces => cases p <;> simp [assemble, hhigh, hlow]

theorem assemble_map_piece (cs : List Char) : assemble (cs.map piece) = some cs := by
  induction cs with
  | nil => rfl
  | cons c cs ih =>
    rw [List.map_cons, piece]
    split
    · rename_i hcontrol
      rw [assemble_unit hcontrol.1, ih, Option.map_some, Char.ofNat_toNat]
    · rw [assemble, ih, Option.map_some]

theorem scanToken?_quote (s : String) (rest : List Char) :
    scanToken? ((quote s).toList ++ rest) = some (.leaf (.string (some s)), rest) := by
  have hquote : (quote s).toList ++ rest = '"' :: (s.toList.flatMap escape ++ '"' :: rest) := by
    simp [quote]
  rw [hquote, scanToken?, scanString_flatMap_escape]
  simp [assemble_map_piece]

/-! ## Numbers -/

/-- A value is followed by a separator, the end of its container or nothing. -/
def Stops (rest : List Char) : Prop := ∀ c ∈ rest.head?, c = ',' ∨ c = ']' ∨ c = '\x7d'

theorem Stops.not_isDigit (h : Stops rest) : ∀ c ∈ rest.head?, c.isDigit = false := by
  intro c hc
  rcases h c hc with rfl | rfl | rfl <;> rfl

section

variable {p : Char → Bool} (hrest : ∀ c ∈ rest.head?, p c = false)

include hrest

theorem takeWhile_append_stop (cs : List Char) : (cs ++ rest).takeWhile p = cs.takeWhile p := by
  induction cs with
  | nil => cases rest <;> simp_all
  | cons c cs ih => simp only [List.cons_append, List.takeWhile_cons, ih]

theorem dropWhile_append_stop (cs : List Char) :
    (cs ++ rest).dropWhile p = cs.dropWhile p ++ rest := by
  induction cs with
  | nil => cases rest <;> simp_all
  | cons c cs ih =>
    simp only [List.cons_append, List.dropWhile_cons, ih]
    split <;> rfl

end

def starts (d : Char) (cs : List Char) : Bool := cs.head? == some d

theorem starts_cons (c d : Char) (cs : List Char) : starts d (c :: cs) = (c == d) := rfl

theorem starts_iff : starts d cs = true ↔ ∃ rest, cs = d :: rest := by
  cases cs with
  | nil => simp [starts]
  | cons c cs => simp [starts_cons]

theorem starts_eq_false (h : ∀ rest, cs ≠ d :: rest) : starts d cs = false :=
  Bool.eq_false_iff.mpr fun hstarts => (starts_iff.mp hstarts).elim h

theorem starts_append (hrest : Stops rest) (hd : d ≠ ',' ∧ d ≠ ']' ∧ d ≠ '\x7d')
    (cs : List Char) : starts d (cs ++ rest) = starts d cs := by
  cases cs with
  | cons c cs => rfl
  | nil =>
    refine Bool.eq_false_iff.mpr fun hstarts => ?_
    rcases hrest d (by simpa [starts] using hstarts) with rfl | rfl | rfl <;> simp at hd

theorem tail_append (h : starts d cs = true) (rest : List Char) :
    (cs ++ rest).tail = cs.tail ++ rest := by
  cases cs with
  | nil => cases h
  | cons c cs => rfl

def scanPlaces? (cs : List Char) : Option (List Char × List Char) :=
  if starts '.' cs then
    if cs.tail.takeWhile Char.isDigit = [] then none
    else some (cs.tail.takeWhile Char.isDigit, cs.tail.dropWhile Char.isDigit)
  else some ([], cs)

/-- Whether the sign of an exponent is a minus, and what follows it. -/
def exponentSign (cs : List Char) : Bool × List Char :=
  (starts '-' cs, if starts '-' cs || starts '+' cs then cs.tail else cs)

theorem exponentSign_minus (cs : List Char) : exponentSign ('-' :: cs) = (true, cs) := rfl

theorem exponentSign_plus (cs : List Char) : exponentSign ('+' :: cs) = (false, cs) := rfl

theorem exponentSign_of_unsigned (hminus : ∀ rest, cs ≠ '-' :: rest)
    (hplus : ∀ rest, cs ≠ '+' :: rest) : exponentSign cs = (false, cs) := by
  simp [exponentSign, starts_eq_false hminus, starts_eq_false hplus]

def scanExponent? (cs : List Char) : Option (Option (Bool × List Char) × List Char) :=
  if starts 'e' cs || starts 'E' cs then
    let signed := exponentSign cs.tail
    let ds := signed.2.takeWhile Char.isDigit
    if ds = [] then none else some (some (signed.1, ds), signed.2.dropWhile Char.isDigit)
  else some (none, cs)

theorem scanExponent?_of_mark {below : Bool} (hc : c = 'e' ∨ c = 'E')
    (hsign : exponentSign cs = (below, rest)) :
    scanExponent? (c :: cs) =
      if rest.takeWhile Char.isDigit = [] then none
      else some (some (below, rest.takeWhile Char.isDigit), rest.dropWhile Char.isDigit) := by
  have hmark : (starts 'e' (c :: cs) || starts 'E' (c :: cs)) = true := by
    simpa [starts_cons] using hc
  simp only [scanExponent?, hmark, if_true, List.tail_cons, hsign]

theorem scanExponent?_of_not_mark (hc : ¬(c = 'e' ∨ c = 'E')) :
    scanExponent? (c :: cs) = some (none, c :: cs) :=
  if_neg (by simpa [starts_cons] using hc)

def scanUnsigned? (negative : Bool) (cs : List Char) : Option (Numeral × List Char) :=
  let whole := cs.takeWhile Char.isDigit
  if whole ≠ [] ∧ (whole.head? ≠ some '0' ∨ whole.length = 1) then
    (scanPlaces? (cs.dropWhile Char.isDigit)).bind fun places =>
      (scanExponent? places.2).map fun exponent =>
        (⟨negative, whole, places.1, exponent.1⟩, exponent.2)
  else none

/-- The scan as a sequence of its parts, with no pattern on the text. -/
theorem scanNumeral?_eq (cs : List Char) :
    scanNumeral? cs =
      scanUnsigned? (starts '-' cs) (if starts '-' cs then cs.tail else cs) := by
  unfold scanNumeral?
  split
  rename_i negative unsigned hsign
  have hsigned : starts '-' cs = negative ∧
      (if starts '-' cs then cs.tail else cs) = unsigned := by
    split at hsign
    · cases hsign
      exact ⟨rfl, rfl⟩
    · rename_i hminus
      cases hsign
      simp [starts_eq_false hminus]
  obtain ⟨hstarts, hunsigned⟩ := hsigned
  rw [hunsigned, hstarts]
  -- What the scan does after the places is one function, since two branches go on with it.
  extract_lets whole fraction scanAfter
  have hafter (places : List Char × List Char) :
      scanAfter places = (scanExponent? places.2).map fun exponent =>
        (⟨negative, whole, places.1, exponent.1⟩, exponent.2) := by
    obtain ⟨places, exponent⟩ := places
    dsimp only [scanAfter]
    cases exponent with
    | nil => rfl
    | cons c cs =>
      dsimp only
      split
      · rename_i hmark
        split
        · rw [scanExponent?_of_mark hmark (exponentSign_minus _)]
          split <;> rfl
        · rw [scanExponent?_of_mark hmark (exponentSign_plus _)]
          split <;> rfl
        · rename_i hminus hplus
          rw [scanExponent?_of_mark hmark (exponentSign_of_unsigned hminus hplus)]
          split <;> rfl
      · rename_i hmark
        rw [scanExponent?_of_not_mark hmark]
        rfl
  change _ = if whole ≠ [] ∧ (whole.head? ≠ some '0' ∨ whole.length = 1) then
    (scanPlaces? fraction).bind fun places => (scanExponent? places.2).map fun exponent =>
      ((⟨negative, whole, places.1, exponent.1⟩ : Numeral), exponent.2) else none
  by_cases hwhole : whole ≠ [] ∧ (whole.head? ≠ some '0' ∨ whole.length = 1)
  · rw [guard, if_pos hwhole, if_pos hwhole]
    simp only [← hafter, Option.pure_def, Option.bind_eq_bind, Option.bind_some]
    clear_value scanAfter whole fraction
    unfold scanPlaces?
    split
    · split
      · rename_i hplaces
        simp [starts_cons, hplaces]
      · rename_i hplaces
        simp [starts_cons, hplaces]
    · rename_i hpoint
      rw [if_neg (Bool.eq_false_iff.mp (starts_eq_false hpoint)), Option.bind_some]
  · rw [guard, if_neg hwhole, if_neg hwhole]
    rfl

/-- Only zero is written with a zero in front. -/
theorem head?_toDigits {n : Nat} (h : 0 < n) : (Nat.toDigits 10 n).head? ≠ some '0' := by
  induction n using Nat.strongRecOn with
  | ind n ih =>
    rcases Nat.lt_or_ge n 10 with hlt | hge
    · rw [Nat.toDigits_of_lt_base hlt, List.head?_cons, Ne, Option.some.injEq,
        Nat.digitChar_eq_zero]
      omega
    · rw [Nat.toDigits_of_base_le (by decide) hge,
        List.head?_append_of_ne_nil _ Nat.toDigits_ne_nil]
      exact ih (n / 10) (by omega) (by omega)

theorem scanNumeral?_toDigits (n : Nat) :
    scanNumeral? (Nat.toDigits 10 n) = some (⟨false, Nat.toDigits 10 n, [], none⟩, []) := by
  have hdigits : ∀ c ∈ Nat.toDigits 10 n, c.isDigit = true := fun c =>
    Nat.isDigit_of_mem_toDigits (by decide) (by decide)
  have hwhole : Nat.toDigits 10 n ≠ [] ∧
      ((Nat.toDigits 10 n).head? ≠ some '0' ∨ (Nat.toDigits 10 n).length = 1) := by
    refine ⟨Nat.toDigits_ne_nil, ?_⟩
    rcases Nat.eq_zero_or_pos n with rfl | hn
    · exact .inr rfl
    · exact .inl (head?_toDigits hn)
  have hminus : starts '-' (Nat.toDigits 10 n) = false :=
    starts_eq_false fun rest hrest => by
      have hdigit := hdigits '-' (hrest ▸ List.mem_cons_self)
      cases hdigit
  rw [scanNumeral?_eq, hminus, if_neg Bool.false_ne_true, scanUnsigned?,
    List.takeWhile_eq_self_iff.mpr hdigits, List.dropWhile_eq_nil_iff.mpr hdigits, if_pos hwhole]
  rfl

section

variable (hrest : Stops rest)

include hrest

theorem scanPlaces?_append {places left : List Char} (h : scanPlaces? cs = some (places, left)) :
    scanPlaces? (cs ++ rest) = some (places, left ++ rest) := by
  unfold scanPlaces? at h ⊢
  rw [starts_append hrest (by decide)]
  split at h
  · rename_i hpoint
    rw [if_pos hpoint, tail_append hpoint, takeWhile_append_stop hrest.not_isDigit,
      dropWhile_append_stop hrest.not_isDigit]
    split at h
    · cases h
    · rename_i hplaces
      cases h
      rw [if_neg hplaces]
  · rename_i hpoint
    cases h
    rw [if_neg hpoint]

theorem exponentSign_append (cs : List Char) :
    exponentSign (cs ++ rest) = ((exponentSign cs).1, (exponentSign cs).2 ++ rest) := by
  unfold exponentSign
  rw [starts_append hrest (by decide), starts_append hrest (by decide)]
  congr 1
  split
  · rename_i hsign
    rcases Bool.or_eq_true_iff.mp hsign with hsign | hsign <;> exact tail_append hsign rest
  · rfl

theorem scanExponent?_append {exponent : Option (Bool × List Char)} {left : List Char}
    (h : scanExponent? cs = some (exponent, left)) :
    scanExponent? (cs ++ rest) = some (exponent, left ++ rest) := by
  unfold scanExponent? at h ⊢
  rw [starts_append hrest (by decide), starts_append hrest (by decide)]
  split at h
  · rename_i he
    have htail : (cs ++ rest).tail = cs.tail ++ rest := by
      rcases Bool.or_eq_true_iff.mp he with he | he <;> exact tail_append he rest
    rw [if_pos he, htail, exponentSign_append hrest]
    dsimp only at h ⊢
    rw [takeWhile_append_stop hrest.not_isDigit, dropWhile_append_stop hrest.not_isDigit]
    split at h
    · cases h
    · rename_i hdigits
      cases h
      rw [if_neg hdigits]
  · rename_i he
    cases h
    rw [if_neg he]

theorem scanUnsigned?_append {negative : Bool} {n : Numeral} {left : List Char}
    (h : scanUnsigned? negative cs = some (n, left)) :
    scanUnsigned? negative (cs ++ rest) = some (n, left ++ rest) := by
  unfold scanUnsigned? at h ⊢
  rw [takeWhile_append_stop hrest.not_isDigit, dropWhile_append_stop hrest.not_isDigit]
  dsimp only at h ⊢
  split at h
  · rename_i hwhole
    rw [if_pos hwhole]
    obtain ⟨⟨places, left'⟩, hplaces, h⟩ := Option.bind_eq_some_iff.mp h
    obtain ⟨⟨exponent, left''⟩, hexponent, hn⟩ := Option.map_eq_some_iff.mp h
    cases hn
    rw [scanPlaces?_append hrest hplaces, Option.bind_some, scanExponent?_append hrest hexponent]
    rfl
  · cases h

theorem scanNumeral?_append {n : Numeral} {left : List Char}
    (h : scanNumeral? cs = some (n, left)) :
    scanNumeral? (cs ++ rest) = some (n, left ++ rest) := by
  rw [scanNumeral?_eq] at h ⊢
  rw [starts_append hrest (by decide)]
  split at h
  · rename_i hminus
    rw [if_pos hminus, tail_append hminus]
    exact scanUnsigned?_append hrest h
  · rename_i hminus
    rw [if_neg hminus]
    exact scanUnsigned?_append hrest h

end

end RoleLottery.Json
