/-!
# Reading characters

A reader takes a value off the front of a text. The readers here are those that all parts of a TOML
document share: blanks, comments, and the ends of lines.
-/

namespace ProgramGen.Toml

/-- What takes a value off the front of a text, or refuses the text. -/
abbrev Reader := StateT (List Char) Option

/-- Blanks stay within a line. -/
def isBlank (c : Char) : Bool := c == ' ' || c == '\t'

/-- The characters of text within a line: tabs, and all that are not controls. -/
def isTextChar (c : Char) : Bool := c == '\t' || (c.toNat ≥ 0x20 && c.toNat ≠ 0x7F)

/-- Take a character if it is `c`. -/
def accept (c : Char) : Reader Bool := fun cs =>
  match cs with
  | d :: rest => if d = c then some (true, rest) else some (false, cs)
  | [] => some (false, cs)

def expect (c : Char) : Reader Unit := do
  if !(← accept c) then failure

def skipBlanks : Reader Unit := modify (·.dropWhile isBlank)

/-- The text without the end of line that it starts with, if it starts with one. -/
def afterNewline? : List Char → Option (List Char)
  | '\n' :: rest => some rest
  | '\r' :: '\n' :: rest => some rest
  | _ => none

def newline : Reader Unit := fun cs => (afterNewline? cs).map ((), ·)

/-- A comment, if there is one, up to the end of its line. -/
def skipComment : Reader Unit := modify fun
  | '#' :: rest => rest.dropWhile isTextChar
  | cs => cs

/-- The end of a line or of the text, after blanks and a comment. -/
def lineEnd : Reader Unit := do
  skipBlanks
  skipComment
  if !(← get).isEmpty then newline

/-- Blanks, comments and ends of lines. -/
def skipLines : Reader Unit := do
  set (← go ((← get).length + 1) (← get))
where
  go : Nat → List Char → Option (List Char)
    | 0, _ => none
    | n + 1, cs =>
      match cs.dropWhile isBlank with
      | '#' :: rest => do go n (← afterNewline? (rest.dropWhile isTextChar))
      | '\n' :: rest => go n rest
      | '\r' :: rest => do go n (← afterNewline? ('\r' :: rest))
      | rest => some rest

/-- Items with a comma between each two, and `space` around each, up to `close`. With `trailing` a
comma may follow the last item. -/
def commaSeparated {α : Type} (item : Reader α) (space : Reader Unit) (close : Char)
    (trailing : Bool) : Reader (List α) := do
  space
  if ← accept close then return []
  else go ((← get).length + 1)
where
  go : Nat → Reader (List α)
    | 0 => failure
    | n + 1 => do
      let x ← item
      space
      if ← accept close then return [x]
      else
        expect ','
        space
        if ← (if trailing then accept close else pure false) then return [x]
        else return x :: (← go n)

end ProgramGen.Toml
