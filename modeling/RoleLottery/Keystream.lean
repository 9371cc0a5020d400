/-!
# Keystream generator

Random words from the ChaCha cipher with twelve rounds, a block counter of 64 bits and the stream
number zero. The key is expanded from a seed of 64 bits by a permuted congruential generator.
-/

namespace RoleLottery

class WordSource (γ : Type) where
  next : γ → UInt64 × γ

abbrev Block := Vector UInt32 16

namespace Block

def rotateLeft (x : UInt32) (n : UInt32) : UInt32 := (x <<< n) ||| (x >>> (32 - n))

def quarterRound (b : Block) (i j k l : Fin 16) : Block :=
  let b := b.set i (b[i] + b[j])
  let b := b.set l (rotateLeft (b[l] ^^^ b[i]) 16)
  let b := b.set k (b[k] + b[l])
  let b := b.set j (rotateLeft (b[j] ^^^ b[k]) 12)
  let b := b.set i (b[i] + b[j])
  let b := b.set l (rotateLeft (b[l] ^^^ b[i]) 8)
  let b := b.set k (b[k] + b[l])
  b.set j (rotateLeft (b[j] ^^^ b[k]) 7)

/-- The columns, then the diagonals. -/
def doubleRound (b : Block) : Block :=
  let b := quarterRound b 0 4 8 12
  let b := quarterRound b 1 5 9 13
  let b := quarterRound b 2 6 10 14
  let b := quarterRound b 3 7 11 15
  let b := quarterRound b 0 5 10 15
  let b := quarterRound b 1 6 11 12
  let b := quarterRound b 2 7 8 13
  quarterRound b 3 4 9 14

/-- Twelve rounds, and the start added to their result. -/
def scramble (b : Block) : Block :=
  b.zipWith (· + ·) ((List.range 6).foldl (fun b _ => doubleRound b) b)

end Block

structure Keystream where
  key : Vector UInt32 8
  counter : UInt64
  /-- What is left of the present block. -/
  pending : List UInt64

namespace Keystream

/-- The words of one block: constants, key, counter and stream number. -/
def block (key : Vector UInt32 8) (counter : UInt64) : Block :=
  let constants : Vector UInt32 4 := #v[0x61707865, 0x3320646e, 0x79622d32, 0x6b206574]
  constants ++ key ++ #v[counter.toUInt32, (counter >>> 32).toUInt32, 0, 0]

/-- Joins words in pairs, the low half first. -/
def pairs : List UInt32 → List UInt64
  | low :: high :: rest => (high.toUInt64 <<< 32 ||| low.toUInt64) :: pairs rest
  | _ => []

def next (g : Keystream) : UInt64 × Keystream :=
  match g.pending with
  | word :: rest => (word, { g with pending := rest })
  | [] =>
    match pairs (block g.key g.counter).scramble.toList with
    | word :: rest => (word, { g with counter := g.counter + 1, pending := rest })
    | [] => (0, g)

instance : WordSource Keystream := ⟨next⟩

def seedStep (state : UInt64) : UInt64 := state * 6364136223846793005 + 11634580027462260723

def seedWord (state : UInt64) : UInt32 :=
  let mixed := (((state >>> 18) ^^^ state) >>> 27).toUInt32
  let turn := (state >>> 59).toUInt32
  (mixed >>> turn) ||| (mixed <<< ((32 - turn) % 32))

def ofSeed (seed : UInt64) : Keystream :=
  let states := Nat.rec (motive := fun _ => UInt64) seed (fun _ state => seedStep state)
  { key := Vector.ofFn fun i => seedWord (states (i + 1)), counter := 0, pending := [] }

end Keystream

end RoleLottery
