import ProgramGen.Toml.Scan

/-!
# Dates and times

A date, a time of day, or both, perhaps with an offset. Only whether the text is one matters, so the
functions here give back what follows it.
-/

namespace ProgramGen.Toml

/-- The value of two decimal digits if it is at least `lo` and at most `hi`, and what follows. -/
def twoDigits? (lo hi : Nat) : List Char → Option (Nat × List Char)
  | a :: b :: rest =>
    if a.isDigit && b.isDigit then
      let n := 10 * (a.toNat - 48) + (b.toNat - 48)
      if lo ≤ n ∧ n ≤ hi then some (n, rest) else none
    else none
  | _ => none

/-- The text after a character `c`. -/
def after? (c : Char) : List Char → Option (List Char)
  | d :: rest => if d = c then some rest else none
  | [] => none

def isLeapYear (y : Nat) : Bool := y % 4 == 0 && (y % 100 != 0 || y % 400 == 0)

def daysInMonth (y m : Nat) : Nat :=
  if m = 2 then (if isLeapYear y then 29 else 28)
  else if [4, 6, 9, 11].contains m then 30 else 31

/-- What follows a date. -/
def afterDate? (cs : List Char) : Option (List Char) := do
  let (century, cs) ← twoDigits? 0 99 cs
  let (year, cs) ← twoDigits? 0 99 cs
  let (month, cs) ← twoDigits? 1 12 (← after? '-' cs)
  let (_, cs) ← twoDigits? 1 (daysInMonth (100 * century + year) month) (← after? '-' cs)
  return cs

/-- What follows a fraction of a second, which may be missing. -/
def afterFraction : List Char → List Char
  | '.' :: d :: rest => if d.isDigit then rest.dropWhile Char.isDigit else '.' :: d :: rest
  | cs => cs

/-- What follows a time of day; it has seconds, among them a leap second. -/
def afterTime? (cs : List Char) : Option (List Char) := do
  let (_, cs) ← twoDigits? 0 23 cs
  let (_, cs) ← twoDigits? 0 59 (← after? ':' cs)
  let (_, cs) ← twoDigits? 0 60 (← after? ':' cs)
  return afterFraction cs

/-- What follows an offset from universal time, which may be missing. -/
def afterOffset (cs : List Char) : List Char :=
  match cs with
  | c :: rest =>
    if c == 'Z' || c == 'z' then rest
    else if c == '+' || c == '-' then
      (do
        let (_, cs) ← twoDigits? 0 23 rest
        let (_, cs) ← twoDigits? 0 59 (← after? ':' cs)
        pure cs : Option (List Char)).getD cs
    else cs
  | [] => []

/-- What follows a date with a time, a date, or a time of day. -/
def afterDateTime? (cs : List Char) : Option (List Char) :=
  match afterDate? cs with
  | none => afterTime? cs
  | some rest =>
    match rest with
    | c :: time =>
      if c == 'T' || c == 't' || c == ' ' then
        some (((afterTime? time).map afterOffset).getD rest)
      else some rest
    | [] => some []

end ProgramGen.Toml
