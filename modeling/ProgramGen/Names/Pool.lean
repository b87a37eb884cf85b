import ProgramGen.Names.Words
import ProgramGen.Random.Draw
import ProgramGen.Text.Uppercase

/-!
# The pool of names

Names are drawn from a list of words without replacement, so that no name comes twice; once the
list is used up they are numbered. The letters that name type parameters are drawn apart, with
replacement but around those already in use.
-/

namespace ProgramGen

/-- The words that are left, and how many names were numbered since there were none. -/
structure WordPool where
  words : Array String
  numbered : Nat

namespace WordPool

/-- All words that the language does not reserve. -/
def full (l : Language) : WordPool :=
  ⟨(wordList.filter fun w => !l.reservedWords.contains w).toArray, 0⟩

/-- Put back all words, and number from the start again. -/
def reset (p : WordPool) (l : Language) : WordPool :=
  { p with words := (full l).words, numbered := 0 }

def remaining (p : WordPool) : Nat := p.words.size

/-- Take out the word at position `i`; the last word comes into its place. -/
def take (p : WordPool) (i : Nat) : String × WordPool :=
  match p.words[i]?, p.words.back? with
  | some w, some last => (w, { p with words := (p.words.setIfInBounds i last).pop })
  -- Not reached by a draw, which takes one of the words that are left.
  | _, _ => ("", p)

/-- The next numbered name. -/
def number (p : WordPool) : String × WordPool :=
  ("ident" ++ toString (p.numbered + 1), { p with numbered := p.numbered + 1 })

/-- Draw a name that begins in lowercase. -/
def word (p : WordPool) : Rand (String × WordPool) :=
  if p.words.isEmpty then return p.number
  else return p.take (← Rand.sizeBetween 0 (p.words.size - 1))

/-- Draw a name for a class. -/
def className (p : WordPool) : Rand (String × WordPool) := do
  let (w, p) ← p.word
  return (capitalize w, p)

end WordPool

/-- The 26 letters that name type parameters. -/
def capitalLetters : List String :=
  (List.range 26).map fun i => String.singleton (Char.ofNat (65 + i))

/-- A letter that is not among the names in use, if one is left. -/
def freshLetter (used : List String) : Rand (Option String) :=
  let free := capitalLetters.filter fun c => !used.contains c
  if free.isEmpty then return none
  else return free[← Rand.sizeBetween 0 (free.length - 1)]?

end ProgramGen
