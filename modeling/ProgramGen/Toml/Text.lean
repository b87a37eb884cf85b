import ProgramGen.Toml.Scan

/-!
# Strings

Strings in double quotes have escapes, strings in single quotes have none. Three quotes open a
string of several lines, in which an end of line is one character however it is written.
-/

namespace ProgramGen.Toml

/-! ## Escapes -/

def hexDigit? (c : Char) : Option Nat :=
  if '0' ≤ c && c ≤ '9' then some (c.toNat - 48)
  else if 'a' ≤ c && c ≤ 'f' then some (c.toNat - 87)
  else if 'A' ≤ c && c ≤ 'F' then some (c.toNat - 55)
  else none

/-- The character with a code in hexadecimal, if there is one. -/
def codePoint? (digits : List Char) : Option Char := do
  let ds ← digits.mapM hexDigit?
  let n := ds.foldl (fun n d => 16 * n + d) 0
  if n.isValidChar then some (Char.ofNat n) else none

/-- The character that a letter after a backslash stands for. -/
def escape? : Char → Option Char
  | 'b' => some '\x08'
  | 't' => some '\t'
  | 'n' => some '\n'
  | 'f' => some '\x0c'
  | 'r' => some '\r'
  | '"' => some '"'
  | '\\' => some '\\'
  | _ => none

/-! ## One line -/

/-- Add a character in front of what a reader has read. -/
def withFirst (c : Char) (r : Option (List Char × List Char)) : Option (List Char × List Char) :=
  r.map fun (text, rest) => (c :: text, rest)

/-- The text up to a double quote, with escapes. -/
def escapedText : List Char → Option (List Char × List Char)
  | [] => none
  | '"' :: rest => some ([], rest)
  | '\\' :: 'u' :: a :: b :: c :: d :: rest => do
    withFirst (← codePoint? [a, b, c, d]) (escapedText rest)
  | '\\' :: 'U' :: a :: b :: c :: d :: e :: f :: g :: h :: rest => do
    withFirst (← codePoint? [a, b, c, d, e, f, g, h]) (escapedText rest)
  | '\\' :: c :: rest => do withFirst (← escape? c) (escapedText rest)
  | c :: rest => if isTextChar c then withFirst c (escapedText rest) else none

/-- The text up to a single quote. -/
def plainText : List Char → Option (List Char × List Char)
  | [] => none
  | '\'' :: rest => some ([], rest)
  | c :: rest => if isTextChar c then withFirst c (plainText rest) else none

/-! ## Several lines -/

/-- The text up to three quotes `q`. Of more than three quotes, up to two before the last three
belong to the text. -/
def closing? (q : Char) : List Char → Option (List Char × List Char)
  | a :: b :: c :: rest =>
    if a = q ∧ b = q ∧ c = q then
      match rest with
      | d :: e :: rest' =>
        if d = q ∧ e = q then some ([q, q], rest')
        else if d = q then some ([q], e :: rest') else some ([], rest)
      | [d] => if d = q then some ([q], []) else some ([], [d])
      | [] => some ([], [])
    else none
  | _ => none

/-- Whether only blanks are left on a line. -/
def lineIsOver (cs : List Char) : Bool := (afterNewline? (cs.dropWhile isBlank)).isSome

/-- The text up to three double quotes, with escapes. While `skipping` after a backslash at the end
of a line, blanks and ends of lines are left out. -/
def escapedLines (skipping : Bool) : List Char → Option (List Char × List Char)
  | [] => none
  | '\r' :: '\n' :: rest =>
    if skipping then escapedLines true rest else withFirst '\n' (escapedLines false rest)
  | '\\' :: 'u' :: a :: b :: c :: d :: rest => do
    withFirst (← codePoint? [a, b, c, d]) (escapedLines false rest)
  | '\\' :: 'U' :: a :: b :: c :: d :: e :: f :: g :: h :: rest => do
    withFirst (← codePoint? [a, b, c, d, e, f, g, h]) (escapedLines false rest)
  | '\\' :: c :: rest =>
    if lineIsOver (c :: rest) then escapedLines true (c :: rest)
    else do withFirst (← escape? c) (escapedLines false rest)
  | c :: rest =>
    match closing? '"' (c :: rest) with
    | some r => some r
    | none =>
      if skipping && (isBlank c || c == '\n') then escapedLines true rest
      else if isTextChar c || c == '\n' then withFirst c (escapedLines false rest)
      else none

/-- The text up to three single quotes. -/
def plainLines : List Char → Option (List Char × List Char)
  | [] => none
  | '\r' :: '\n' :: rest => withFirst '\n' (plainLines rest)
  | c :: rest =>
    match closing? '\'' (c :: rest) with
    | some r => some r
    | none => if isTextChar c || c == '\n' then withFirst c (plainLines rest) else none

/-! ## All kinds -/

/-- The text without an end of line at its start. -/
def withoutNewline (cs : List Char) : List Char := (afterNewline? cs).getD cs

/-- A string within one line. -/
def lineText : Reader String := fun cs =>
  match cs with
  | '"' :: rest => (escapedText rest).map fun (t, r) => (String.ofList t, r)
  | '\'' :: rest => (plainText rest).map fun (t, r) => (String.ofList t, r)
  | _ => none

/-- A string of any kind. -/
def text : Reader String := fun cs =>
  match cs with
  | '"' :: '"' :: '"' :: rest =>
    (escapedLines false (withoutNewline rest)).map fun (t, r) => (String.ofList t, r)
  | '\'' :: '\'' :: '\'' :: rest =>
    (plainLines (withoutNewline rest)).map fun (t, r) => (String.ofList t, r)
  | _ => lineText cs

end ProgramGen.Toml
