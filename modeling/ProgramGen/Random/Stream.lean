import ProgramGen.Random.Cipher

/-!
# The random stream

An endless sequence of words: the blocks of one key in the order of their counters. `Rand α` is a
computation that reads from the stream; every random choice of the generator is one.
-/

namespace ProgramGen

/-- A position in the sequence of words that a key gives. -/
structure Stream where
  key : CipherKey
  /-- The number of the next block. -/
  counter : UInt64
  /-- Words of the current block that have not been read yet. -/
  ready : List UInt32

/-- A computation that reads words from a stream. -/
abbrev Rand := StateM Stream

namespace Stream

/-- One step of the congruential sequence that spreads a seed over a key. -/
def seedStep (s : UInt64) : UInt64 :=
  s * 6364136223846793005 + 11634580027462260723

/-- The word of the key at one point of the congruential sequence: its upper bits, rotated by the
topmost five. -/
def seedWord (s : UInt64) : UInt32 :=
  let w := (((s >>> 18) ^^^ s) >>> 27).toUInt32
  let n := (s >>> 59).toUInt32
  -- Shifts count modulo 32, so `0 - n` is what `n` lacks of a full turn.
  (w >>> n) ||| (w <<< (0 - n))

/-- The row of four consecutive words after `s`, and the point that the sequence has reached. -/
def seedRow (s : UInt64) : Row × UInt64 :=
  let s0 := seedStep s
  let s1 := seedStep s0
  let s2 := seedStep s1
  let s3 := seedStep s2
  (⟨seedWord s0, seedWord s1, seedWord s2, seedWord s3⟩, s3)

/-- The stream that belongs to a seed, at its start. -/
def ofSeed (seed : UInt64) : Stream :=
  let (lower, s) := seedRow seed
  let (upper, _) := seedRow s
  { key := ⟨lower, upper⟩, counter := 0, ready := [] }

/-- The next word and the stream behind it. -/
def next32 (s : Stream) : UInt32 × Stream :=
  match s.ready with
  | w :: ws => (w, { s with ready := ws })
  | [] =>
    match s.key.block s.counter with
    | w :: ws => (w, { s with counter := s.counter + 1, ready := ws })
    -- Not reached, for a block has sixteen words.
    | [] => (0, { s with counter := s.counter + 1 })

end Stream

namespace Rand

/-- Read one word. -/
def word32 : Rand UInt32 := fun s => s.next32

/-- Read two words as one of 64 bits, the lower half first. -/
def word64 : Rand UInt64 := do
  let low ← word32
  let high ← word32
  return low.toUInt64 ||| (high.toUInt64 <<< 32)

end Rand

end ProgramGen
