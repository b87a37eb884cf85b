import ProgramGen.Config.Value
import ProgramGen.Toml.Date
import ProgramGen.Toml.Text

/-!
# Numbers

Integers of 64 bits in four bases, and floating-point numbers. Single underscores may stand between
digits. A decimal number has no leading zeros, and one too large for a floating-point number is
refused.
-/

namespace ProgramGen.Toml

/-- The rest of a row of digits, without the underscores. -/
def moreDigits (isDigit : Char → Bool) : List Char → Option (List Char × List Char)
  | [] => some ([], [])
  | ['_'] => none
  | '_' :: c :: rest => if isDigit c then withFirst c (moreDigits isDigit rest) else none
  | c :: rest =>
    if isDigit c then withFirst c (moreDigits isDigit rest) else some ([], c :: rest)

/-- A row of digits. -/
def digits (isDigit : Char → Bool) : Reader (List Char) := fun cs =>
  match cs with
  | c :: rest => if isDigit c then withFirst c (moreDigits isDigit rest) else none
  | [] => none

/-- A row of decimal digits that begins with a zero only if it is just that. -/
def wholeDigits : Reader (List Char) := fun cs =>
  match cs with
  | '0' :: rest => some (['0'], rest)
  | _ => digits Char.isDigit cs

/-- The value of a row of digits. -/
def digitsValue (base : Nat) (ds : List Char) : Nat :=
  ds.foldl (fun n d => base * n + (hexDigit? d).getD 0) 0

/-- An integer, if it has 64 bits. -/
def int? (i : Int) : Option ConfigValue :=
  if Int64.minValue.toInt ≤ i ∧ i ≤ Int64.maxValue.toInt then some (.int i) else none

/-- An integer in a base other than ten, after the letter for the base. -/
def basedInt (base : Nat) : Reader ConfigValue := do
  let ds ← digits fun c => (hexDigit? c).any (· < base)
  int? (digitsValue base ds)

def sign : Reader Bool := do
  if ← accept '-' then return true
  else
    let _ ← accept '+'
    return false

/-- The number `± mantissa * 10 ^ exponent`. -/
def decimal? (negative : Bool) (mantissa : Nat) (exponent : Int) : Option ConfigValue :=
  let x : Binary64 := OfScientific.ofScientific mantissa (exponent < 0) exponent.natAbs
  if negative then some (.float (-x)) else if x = .infinity then none else some (.float x)

def exponentDigits : Reader Int := do
  let negative ← sign
  let n := digitsValue 10 (← digits Char.isDigit)
  return if negative then -n else n

/-- The exponent of a number, if it has one. -/
def exponent? : Reader (Option Int) := do
  if ← accept 'e' then some <$> exponentDigits
  else if ← accept 'E' then some <$> exponentDigits
  else return none

/-- A number in decimal notation without its sign. -/
def unsignedNumber (negative : Bool) : Reader ConfigValue := do
  let whole ← wholeDigits
  let fraction ← if ← accept '.' then some <$> digits Char.isDigit else pure none
  let exponent ← exponent?
  if fraction.isNone && exponent.isNone then
    let n := digitsValue 10 whole
    int? (if negative then -n else n)
  else
    let places := fraction.getD []
    decimal? negative (digitsValue 10 (whole ++ places)) (exponent.getD 0 - places.length)

/-- The text after a word. -/
def afterWord? (word : String) (cs : List Char) : Option (List Char) :=
  if word.toList.isPrefixOf cs then some (cs.drop word.length) else none

def word (w : String) : Reader Unit := fun cs => (afterWord? w cs).map ((), ·)

/-- Infinity, or a value that is not a number. -/
def specialNumber (negative : Bool) : Reader ConfigValue := do
  let x ← (word "inf" *> pure Binary64.infinity) <|> (word "nan" *> pure Binary64.nan)
  return .float (if negative then -x else x)

/-- A number or a date. -/
def number : Reader ConfigValue := fun cs =>
  match afterDateTime? cs with
  | some rest => some (.date, rest)
  | none =>
    match cs with
    | '0' :: 'x' :: rest => basedInt 16 rest
    | '0' :: 'o' :: rest => basedInt 8 rest
    | '0' :: 'b' :: rest => basedInt 2 rest
    | _ => (do
      let negative ← sign
      specialNumber negative <|> unsignedNumber negative : Reader ConfigValue) cs

end ProgramGen.Toml
