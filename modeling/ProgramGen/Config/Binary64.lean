/-!
# Numbers of 64 bits

A floating-point number as a value: its bits in the format binary64. Two numbers are equal if all
their bits are. So the two zeros differ, and what is not a number equals itself and keeps its sign.
-/

namespace ProgramGen

/-- A floating-point number by its bits: sign, exponent and fraction. -/
structure Binary64 where
  bits : UInt64
  deriving DecidableEq, Repr, Inhabited

namespace Binary64

def ofFloat (x : Float) : Binary64 := ⟨x.toBits⟩

def toFloat (x : Binary64) : Float := Float.ofBits x.bits

/-- The number nearest to an integer. -/
def ofInt (i : Int) : Binary64 := ofFloat (Float.ofInt i)

/-- A decimal number is rounded to the nearest. -/
instance : OfScientific Binary64 := ⟨fun m down e => ofFloat (OfScientific.ofScientific m down e)⟩

/-- The number with the other sign. -/
instance : Neg Binary64 := ⟨fun x => ⟨x.bits ^^^ 0x8000000000000000⟩⟩

def infinity : Binary64 := ⟨0x7FF0000000000000⟩

/-- The positive value that is not a number and raises no signal. -/
def nan : Binary64 := ⟨0x7FF8000000000000⟩

end Binary64

end ProgramGen
