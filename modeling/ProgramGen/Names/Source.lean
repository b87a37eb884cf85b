import ProgramGen.Names.Pool

/-!
# The source of choices

All that chance decides in a request comes from one value: a random stream and a pool of names, both
determined by the seed and the language.
-/

namespace ProgramGen

/-- A random stream and a pool of names. -/
structure Source where
  stream : Stream
  pool : WordPool
  seed : UInt64

namespace Source

/-- The source for a seed, at its start. -/
def ofSeed (seed : UInt64) (l : Language) : Source := ⟨Stream.ofSeed seed, WordPool.full l, seed⟩

/-- Begin again with another seed and language: a new stream, and the pool refilled. -/
def reset (s : Source) (seed : UInt64) (l : Language) : Source :=
  { s with stream := Stream.ofSeed seed, pool := s.pool.reset l, seed := seed }

/-- The seed that is used where none is given. -/
def defaultSeed : UInt64 := 9100202880737469383

def default : Source := ofSeed defaultSeed .kotlin

/-- Run a computation on the stream. -/
def run {α : Type} (s : Source) (r : Rand α) : α × Source :=
  let (a, stream) := r s.stream
  (a, { s with stream := stream })

/-- Draw from the pool. -/
def draw (s : Source) (d : WordPool → Rand (String × WordPool)) : String × Source :=
  let ((w, pool), stream) := d s.pool s.stream
  (w, { s with stream := stream, pool := pool })

/-- A fresh name that begins in lowercase. -/
def word (s : Source) : String × Source := s.draw WordPool.word

/-- A fresh name for a class. -/
def className (s : Source) : String × Source := s.draw WordPool.className

end Source

end ProgramGen
