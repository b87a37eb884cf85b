/-!
# The ChaCha block function

A block is sixteen words, made from a key and a counter by twelve rounds of mixing. The four rows
of the state are mixed together, four words at a time; a diagonal round is a column round on the
state with its rows turned.
-/

namespace ProgramGen

/-- Four words that are mixed side by side: one row of the cipher's state. -/
structure Row where
  w0 : UInt32
  w1 : UInt32
  w2 : UInt32
  w3 : UInt32
  deriving DecidableEq, Repr

namespace Row

/-- Rotate one word to the left. -/
def rotateWord (w : UInt32) (n : UInt32) : UInt32 :=
  (w <<< n) ||| (w >>> (32 - n))

def add (a b : Row) : Row :=
  ⟨a.w0 + b.w0, a.w1 + b.w1, a.w2 + b.w2, a.w3 + b.w3⟩

/-- Exclusive or of two rows, each word then rotated by `n`. -/
def mix (a b : Row) (n : UInt32) : Row :=
  ⟨rotateWord (a.w0 ^^^ b.w0) n, rotateWord (a.w1 ^^^ b.w1) n,
    rotateWord (a.w2 ^^^ b.w2) n, rotateWord (a.w3 ^^^ b.w3) n⟩

/-- The row with its words moved one place to the left, the first to the end. -/
def turn (a : Row) : Row :=
  ⟨a.w1, a.w2, a.w3, a.w0⟩

def toList (a : Row) : List UInt32 :=
  [a.w0, a.w1, a.w2, a.w3]

end Row

/-- The cipher's state: a row of constants, two rows of key, a row with the block counter. -/
structure CipherState where
  a : Row
  b : Row
  c : Row
  d : Row
  deriving DecidableEq, Repr

namespace CipherState

/-- Four quarter rounds, one in each column. -/
def columnRound (s : CipherState) : CipherState :=
  let a := s.a.add s.b
  let d := s.d.mix a 16
  let c := s.c.add d
  let b := s.b.mix c 12
  let a := a.add b
  let d := d.mix a 8
  let c := c.add d
  let b := b.mix c 7
  ⟨a, b, c, d⟩

/-- A column round, then one along the diagonals. -/
def doubleRound (s : CipherState) : CipherState :=
  let s := s.columnRound
  -- The diagonals are turned into columns, and turned back below.
  let s := columnRound ⟨s.a, s.b.turn, s.c.turn.turn, s.d.turn.turn.turn⟩
  ⟨s.a, s.b.turn.turn.turn, s.c.turn.turn, s.d.turn⟩

def add (s t : CipherState) : CipherState :=
  ⟨s.a.add t.a, s.b.add t.b, s.c.add t.c, s.d.add t.d⟩

def words (s : CipherState) : List UInt32 :=
  s.a.toList ++ (s.b.toList ++ (s.c.toList ++ s.d.toList))

end CipherState

/-- The eight words of a key, in two rows. -/
structure CipherKey where
  lower : Row
  upper : Row
  deriving DecidableEq, Repr

/-- The state that a block starts from. -/
def CipherKey.initialState (key : CipherKey) (counter : UInt64) : CipherState where
  -- The words spell "expand 32-byte k", four letters each.
  a := ⟨0x61707865, 0x3320646e, 0x79622d32, 0x6b206574⟩
  b := key.lower
  c := key.upper
  d := ⟨counter.toUInt32, (counter >>> 32).toUInt32, 0, 0⟩

/-- The block numbered `counter`: twelve rounds on the initial state, which is then added. -/
def CipherKey.block (key : CipherKey) (counter : UInt64) : List UInt32 :=
  let start := key.initialState counter
  let mixed := start.doubleRound.doubleRound.doubleRound.doubleRound.doubleRound.doubleRound
  (mixed.add start).words

/-- A block has sixteen words. -/
theorem CipherKey.length_block (key : CipherKey) (counter : UInt64) :
    (key.block counter).length = 16 := rfl

end ProgramGen
