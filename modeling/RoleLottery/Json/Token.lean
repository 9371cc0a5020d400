import RoleLottery.Json.Basic

/-!
# JSON tokens

A JSON text is divided into brackets, separators and the values without parts. Strings are scanned
into pieces first, and the pieces then put together, because an escape may be half of a character.
-/

namespace RoleLottery.Json

inductive Token
  | openArray
  | closeArray
  | openObject
  | closeObject
  | comma
  | colon
  /-- `null`, a truth value, a number or a string. -/
  | leaf (value : Json)

/-- A piece of a string: a character, or a code unit of sixteen bits from a `\u` escape. -/
inductive Piece
  | char (c : Char)
  | unit (n : Nat)

def hexDigit? (c : Char) : Option Nat :=
  let n := c.toNat
  if '0' ≤ c ∧ c ≤ '9' then some (n - '0'.toNat)
  else if 'a' ≤ c ∧ c ≤ 'f' then some (n - 'a'.toNat + 10)
  else if 'A' ≤ c ∧ c ≤ 'F' then some (n - 'A'.toNat + 10)
  else none

def hexValue? (cs : List Char) : Option Nat :=
  cs.foldlM (fun n c => (hexDigit? c).map (16 * n + ·)) 0

def escaped? : Char → Option Char
  | '"' => some '"'
  | '\\' => some '\\'
  | '/' => some '/'
  | 'b' => some '\x08'
  | 'f' => some '\x0c'
  | 'n' => some '\n'
  | 'r' => some '\r'
  | 't' => some '\t'
  | _ => none

/-- The pieces up to the closing quote, and what follows it. -/
def scanString (found : List Piece) : List Char → Option (List Piece × List Char)
  | [] => none
  | '"' :: rest => some (found.reverse, rest)
  | '\\' :: 'u' :: a :: b :: c :: d :: rest =>
    match hexValue? [a, b, c, d] with
    | some n => scanString (.unit n :: found) rest
    | none => none
  | '\\' :: c :: rest =>
    match escaped? c with
    | some e => scanString (.char e :: found) rest
    | none => none
  | c :: rest => if c.toNat < 0x20 then none else scanString (.char c :: found) rest

def isHighSurrogate (n : Nat) : Bool := 0xd800 ≤ n && n < 0xdc00

def isLowSurrogate (n : Nat) : Bool := 0xdc00 ≤ n && n < 0xe000

/-- The characters of the pieces, where a high surrogate needs a low one behind it. -/
def assemble : List Piece → Option (List Char)
  | [] => some []
  | .char c :: rest => (assemble rest).map (c :: ·)
  | .unit n :: .unit m :: rest =>
    if isHighSurrogate n then
      if isLowSurrogate m then
        (assemble rest).map (Char.ofNat (0x10000 + (n - 0xd800) * 0x400 + (m - 0xdc00)) :: ·)
      else none
    else if isLowSurrogate n then none
    else (assemble (.unit m :: rest)).map (Char.ofNat n :: ·)
  | .unit n :: rest =>
    if isHighSurrogate n || isLowSurrogate n then none
    else (assemble rest).map (Char.ofNat n :: ·)

/-- A number, which has no needless zero in front, and what follows it. -/
def scanNumeral? (cs : List Char) : Option (Numeral × List Char) := do
  let (negative, cs) := match cs with
    | '-' :: rest => (true, rest)
    | _ => (false, cs)
  let whole := cs.takeWhile Char.isDigit
  let cs := cs.dropWhile Char.isDigit
  guard (whole ≠ [] ∧ (whole.head? ≠ some '0' ∨ whole.length = 1))
  let (places, cs) ← match cs with
    | '.' :: rest =>
      let places := rest.takeWhile Char.isDigit
      if places = [] then none else some (places, rest.dropWhile Char.isDigit)
    | _ => some ([], cs)
  match cs with
  | c :: rest =>
    if c = 'e' ∨ c = 'E' then
      let (below, rest) := match rest with
        | '-' :: rest => (true, rest)
        | '+' :: rest => (false, rest)
        | _ => (false, rest)
      let ds := rest.takeWhile Char.isDigit
      if ds = [] then none
      else some (⟨negative, whole, places, some (below, ds)⟩, rest.dropWhile Char.isDigit)
    else some (⟨negative, whole, places, none⟩, cs)
  | [] => some (⟨negative, whole, places, none⟩, [])

def isSpace (c : Char) : Bool := c == ' ' || c == '\n' || c == '\t' || c == '\r'

/-- The token at the start of a text that does not start with white space. -/
def scanToken? : List Char → Option (Token × List Char)
  | '[' :: rest => some (.openArray, rest)
  | ']' :: rest => some (.closeArray, rest)
  | '\x7b' :: rest => some (.openObject, rest)
  | '\x7d' :: rest => some (.closeObject, rest)
  | ',' :: rest => some (.comma, rest)
  | ':' :: rest => some (.colon, rest)
  | 'n' :: 'u' :: 'l' :: 'l' :: rest => some (.leaf .null, rest)
  | 't' :: 'r' :: 'u' :: 'e' :: rest => some (.leaf (.bool true), rest)
  | 'f' :: 'a' :: 'l' :: 's' :: 'e' :: rest => some (.leaf (.bool false), rest)
  | '"' :: rest =>
    (scanString [] rest).map fun (pieces, rest) =>
      (.leaf (.string ((assemble pieces).map String.ofList)), rest)
  | cs => (scanNumeral? cs).map fun (n, rest) => (.leaf (.number n), rest)

/-- Every token takes at least one character, so the number of characters bounds the steps. -/
def tokenizeWithin : Nat → List Token → List Char → Option (List Token)
  | _, found, [] => some found.reverse
  | 0, _, _ :: _ => none
  | steps + 1, found, c :: cs =>
    if isSpace c then tokenizeWithin steps found cs
    else match scanToken? (c :: cs) with
      | none => none
      | some (token, rest) => tokenizeWithin steps (token :: found) rest

def tokenize (cs : List Char) : Option (List Token) := tokenizeWithin cs.length [] cs

end RoleLottery.Json
