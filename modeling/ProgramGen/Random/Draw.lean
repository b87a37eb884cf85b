import ProgramGen.Random.Stream

/-!
# Draws from the stream

Uniform integers by widening multiplication, biased coins, one element of a list, and several
different elements of a list. Which words a draw reads is part of its meaning, for programs are
compared by seed: a range of one value still reads a word, an empty list reads none.

A uniform draw rejects the words that would make it uneven. Each attempt is accepted with a
chance of at least one half; the attempts are counted, and after the last of them the word at
hand is taken. Either way the answer lies in the range.
-/

namespace ProgramGen

/-- A type of integers of fixed width: the width in bits, and whether there is a sign. -/
structure IntFormat where
  bits : Nat
  signed : Bool
  deriving DecidableEq, Repr

namespace IntFormat

def i8 : IntFormat := ⟨8, true⟩
def u8 : IntFormat := ⟨8, false⟩
def i16 : IntFormat := ⟨16, true⟩
def i32 : IntFormat := ⟨32, true⟩
def u32 : IntFormat := ⟨32, false⟩
def i64 : IntFormat := ⟨64, true⟩
/-- The format of sizes and positions. -/
def size : IntFormat := ⟨64, false⟩

/-- The bits that one draw reads for a value of the format. -/
def drawBits (f : IntFormat) : Nat := if f.bits ≤ 32 then 32 else 64

/-- The value whose lowest bits are those of `n`. -/
def wrap (f : IntFormat) (n : Nat) : Int :=
  if f.signed then (n : Int).bmod (1 <<< f.bits) else ((n % (1 <<< f.bits) : Nat) : Int)

/-- The largest low half of a product that a draw of `range` values accepts. Narrow formats
accept as many words as possible, the others compute the bound by a shift. -/
def zone (f : IntFormat) (range : Nat) : Nat :=
  let top := 1 <<< f.drawBits
  if f.bits ≤ 16 then
    (top - 1) - (top - range) % range
  else
    (range <<< (f.drawBits - (range.log2 + 1))) - 1

end IntFormat

namespace Rand

/-- Read a number of `bits` bits, 32 or 64. -/
def bits (bits : Nat) : Rand Nat := do
  if bits ≤ 32 then return (← word32).toNat else return (← word64).toNat

/-- How many words a uniform draw may read before it takes the one at hand. -/
def attempts : Nat := 4096

/-- One of the numbers below `range`: the high half of a product, taken when its low half is at
most `zone`. -/
def below (width range zone : Nat) : Nat → Rand Nat
  | 0 => do
    let v ← bits width
    return (v * range) >>> width
  | n + 1 => do
    let v ← bits width
    let product := v * range
    if product % (1 <<< width) ≤ zone then return product >>> width
    else below width range zone n

/-- One of the integers from `lo` to `hi`, both included. -/
def uniform (f : IntFormat) (lo hi : Int) : Rand Int := do
  let range := ((hi - lo + 1) % (1 <<< f.bits : Nat)).toNat
  -- So many values that their number wraps around: every word is one of them.
  if range = 0 then
    return f.wrap (← bits f.drawBits)
  else
    return lo + (← below f.drawBits range (f.zone range) attempts)

/-- One of the sizes from `lo` to `hi`, both included. -/
def sizeBetween (lo hi : Nat) : Rand Nat :=
  return (← uniform .size lo hi).toNat

/-- A position in a list of `n` elements, where `n` is not zero. -/
def index (n : Nat) : Rand Nat :=
  return (← uniform .u32 0 (n - 1 : Int)).toNat

/-- `true` with probability `p`. A sure event reads nothing. -/
def bool (p : Float) : Rand Bool := do
  -- The bound below has no room for a sure event.
  if p == 1.0 then
    return true
  else
    return (← word64) < (p * 18446744073709551616.0).toUInt64

/-- A fair coin. -/
def coin : Rand Bool := bool 0.5

/-- One element, if there is any. -/
def choose {α : Type} (xs : List α) : Rand (Option α) :=
  match xs with
  | [] => return none
  | _ => return xs[← index xs.length]?

/-! ## Several elements of a list -/

/-- `k` different positions below `n`, by insertion: each draw may fall on any position up to the
next new one, and that one takes the place of a repetition. -/
def positionsByInsertion (n k : Nat) : Rand (List Nat) :=
  (List.range' (n - k) k).foldlM (fun chosen j => do
    let t ← index (j + 1)
    -- A position that was drawn before stays where it is, after the new one.
    match chosen.idxOf? t with
    | some i => return chosen.insertIdx i j
    | none => return chosen ++ [t]) []

/-- `k` different positions below `n`, by exchanging each of the first `k` with a later one. -/
def positionsByExchange (n k : Nat) : Rand (List Nat) := do
  let shuffled ← (List.range k).foldlM (fun (xs : Array Nat) (i : Nat) => do
    let j := (← uniform .u32 (i : Int) (n - 1 : Int)).toNat
    return xs.swapIfInBounds i j) (Array.range n)
  return (shuffled.take k).toList

/-- `k` different positions below `n` in random order. Insertion is for few positions, or few
among many; the bound between the two methods is `n < (10 + 1.6 k) k`. -/
def positions (n k : Nat) : Rand (List Nat) :=
  if 11 < k ∧ 5 * n < (50 + 8 * k) * k then positionsByExchange n k else positionsByInsertion n k

/-- `k` different elements in random order, or all of them if there are fewer. -/
def chooseMultiple {α : Type} (xs : List α) (k : Nat) : Rand (List α) :=
  return (← positions xs.length (min k xs.length)).filterMap (xs[·]?)

end Rand

end ProgramGen
