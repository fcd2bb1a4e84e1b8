/-!
# The random generator

A permuted congruential generator with 64 bits of state and words of 32 bits: a linear congruential
step, whose old state is folded and rotated into the word. All draws are built from its words.
-/
namespace SatModulo

structure Generator where
  state : UInt64
  deriving DecidableEq, Repr

namespace Generator

def multiplier : UInt64 := 6364136223846793005

/-- The summand of the congruential step: the odd number of the stream `1442695040888963407`. -/
def increment : UInt64 := 2 * 1442695040888963407 + 1

def advance (g : Generator) : Generator := ⟨g.state * multiplier + increment⟩

/-- The generator of a seed: one step from zero, the seed added, and one step more. -/
def ofSeed (seed : UInt64) : Generator :=
  let start : Generator := advance ⟨0⟩
  advance ⟨start.state + seed⟩

/-- The next word. Its upper five state bits say how far the folded state is rotated. -/
def next32 (g : Generator) : UInt32 × Generator :=
  let folded := (((g.state >>> 18) ^^^ g.state) >>> 27).toUInt32
  let turn := (g.state >>> 59).toUInt32
  ((folded >>> turn) ||| (folded <<< (32 - turn)), g.advance)

/-- The next two words as one number, the first in the upper half. -/
def next64 (g : Generator) : UInt64 × Generator :=
  let (high, g) := g.next32
  let (low, g) := g.next32
  ((high.toUInt64 <<< 32) ||| low.toUInt64, g)

/-- The first `count` bytes of a number, least significant byte first. -/
def bytesOf (word : UInt64) (count : Nat) : List Nat :=
  (List.range count).map fun i => (word.toNat >>> (8 * i)) % 256

def blocks : Nat → Generator → List Nat × Generator
  | 0, g => ([], g)
  | n + 1, g =>
    let (word, g) := g.next64
    let (rest, g) := blocks n g
    (bytesOf word 8 ++ rest, g)

/-- The next `count` bytes: whole blocks first, then what is left from a double word, or from a
single word if four bytes are enough. -/
def bytes (count : Nat) (g : Generator) : List Nat × Generator :=
  let (whole, g) := blocks (count / 8) g
  let left := count % 8
  if left = 0 then (whole, g)
  else if 4 < left then
    let (word, g) := g.next64
    (whole ++ bytesOf word left, g)
  else
    let (word, g) := g.next32
    (whole ++ bytesOf word.toUInt64 left, g)

end Generator

end SatModulo
