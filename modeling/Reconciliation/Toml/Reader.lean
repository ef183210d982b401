import Reconciliation.Toml.Tables
/-!
# Reading TOML: characters, keys and texts

A reader takes characters from the front of a text, or has no result.  Lines end with a line feed, before which a
carriage return may stand, or with the text.  Apart from tabs and line ends no control character may stand anywhere.

Every reader that repeats something takes a number of steps, the length of the text at the start.
-/
namespace Reconciliation.Toml

/-- **A reader**: takes characters from the front of a text. -/
abbrev Reader (α : Type) := StateT (List Char) Option α

namespace Reader

/-! ## Characters -/

def peek? : Reader (Option Char) := fun cs => some (cs.head?, cs)

def next : Reader Char
  | [] => none
  | c :: cs => some (c, cs)

def literally : List Char → Reader Unit
  | [] => return ()
  | c :: rest => do
    if (← next) = c then literally rest else failure

def takeWhile (p : Char → Bool) : Reader (List Char) := fun cs => some (cs.takeWhile p, cs.dropWhile p)

def maybe {α : Type} (r : Reader α) : Reader (Option α) := some <$> r <|> pure none

/-- What a reader takes, as it is written. -/
def written {α : Type} (r : Reader α) : Reader String := fun cs => do
  let (_, rest) ← r cs
  return (String.ofList (cs.take (cs.length - rest.length)), rest)

/-- Characters that are part of a line: tabs, and all that are no control characters. -/
def inLine (c : Char) : Bool := c = '\t' || (' ' ≤ c && c ≠ '\x7f')

def blanks : Reader Unit := do
  let _ ← takeWhile fun c => c = ' ' || c = '\t'

def lineBreak : Reader Unit := literally ['\n'] <|> literally ['\r', '\n']

def comment : Reader Unit := do
  literally ['#']
  let _ ← takeWhile inLine

def lineEnd : Reader Unit := do
  if (← peek?).isSome then lineBreak

/-- Takes what may stand behind a statement, and the end of its line. -/
def trailing : Reader Unit := do
  blanks
  let _ ← maybe comment
  lineEnd

def lines : Nat → Reader Unit
  | 0 => failure
  | steps + 1 => do
    blanks
    match ← peek? with
    | some '#' =>
      comment
      lineBreak
      lines steps
    | some '\n' | some '\r' =>
      lineBreak
      lines steps
    | _ => return ()

/-! ## Texts -/

def hexValue? (c : Char) : Option Nat :=
  if c.isDigit then some (c.toNat - 48)
  else if 'a' ≤ c && c ≤ 'f' then some (c.toNat - 87)
  else if 'A' ≤ c && c ≤ 'F' then some (c.toNat - 55)
  else none

def charByNumber : Nat → Nat → Reader Char
  | 0, n => if h : n.isValidChar then return Char.ofNatAux n h else failure
  | digits + 1, n => do
    match hexValue? (← next) with
    | some d => charByNumber digits (n * 16 + d)
    | none => failure

def escape : Reader Char := do
  match ← next with
  | 'b' => return '\x08'
  | 't' => return '\t'
  | 'n' => return '\n'
  | 'f' => return '\x0c'
  | 'r' => return '\r'
  | '"' => return '"'
  | '\\' => return '\\'
  | 'u' => charByNumber 4 0
  | 'U' => charByNumber 8 0
  | _ => failure

/-- The rest of a text behind its opening quote; `kept` has the characters so far, the last one first. -/
def basicRest (kept : List Char) : Nat → Reader String
  | 0 => failure
  | steps + 1 => do
    let c ← next
    if c = '"' then return String.ofList kept.reverse
    else if c = '\\' then basicRest ((← escape) :: kept) steps
    else if inLine c then basicRest (c :: kept) steps
    else failure

def literalRest : Reader String := do
  let cs ← takeWhile fun c => inLine c && c ≠ '\''
  literally ['\'']
  return String.ofList cs

def afterBlankLines : List Char → List Char
  | '\r' :: '\n' :: cs => afterBlankLines cs
  | c :: cs => if c = ' ' || c = '\t' || c = '\n' then afterBlankLines cs else c :: cs
  | [] => []

/-- Drops the end of a line behind a backslash, with all blanks and line breaks that follow. -/
def joinedLines : Reader Unit := do
  blanks
  lineBreak
  fun cs => some ((), afterBlankLines cs)

/-- The rest of a text over several lines behind its opening quotes.  Up to two quotes may stand right before the three
that close it. -/
def linesRest (mark : Char) (escapes : Bool) (kept : List Char) : Nat → Reader String
  | 0 => failure
  | steps + 1 => do
    match ← peek? with
    | none => failure
    | some c =>
      if c = mark then
        let quotes ← takeWhile (· = mark)
        if quotes.length < 3 then linesRest mark escapes (quotes ++ kept) steps
        else if quotes.length ≤ 5 then return String.ofList ((quotes.drop 3) ++ kept).reverse
        else failure
      else if c = '\\' && escapes then
        let _ ← next
        match ← maybe joinedLines with
        | some () => linesRest mark escapes kept steps
        | none => linesRest mark escapes ((← escape) :: kept) steps
      else if c = '\n' || c = '\r' then
        lineBreak
        linesRest mark escapes ('\n' :: kept) steps
      else if inLine c then
        let _ ← next
        linesRest mark escapes (c :: kept) steps
      else failure

/-- **A text on one line**, in quotes or in apostrophes. -/
def lineText (steps : Nat) : Reader String := do
  match ← next with
  | '"' => basicRest [] steps
  | '\'' => literalRest
  | _ => failure

/-- A text over several lines, in three quotes or in three apostrophes.  A line break right behind them does not
count. -/
def linesText (steps : Nat) : Reader String := do
  let c ← next
  if c = '"' || c = '\'' then
    literally [c, c]
    let _ ← maybe lineBreak
    linesRest c (c = '"') [] steps
  else failure

/-- **A text.** -/
def text (steps : Nat) : Reader String := linesText steps <|> lineText steps

/-! ## Keys -/

def isBare (c : Char) : Bool := c.isAlphanum || c = '-' || c = '_'

def simpleKey (steps : Nat) : Reader String := do
  match ← peek? with
  | some '"' | some '\'' => lineText steps
  | _ =>
    let cs ← takeWhile isBare
    if cs.isEmpty then failure else return String.ofList cs

def moreKeys : Nat → Reader (List String)
  | 0 => failure
  | steps + 1 => do
    match ← peek? with
    | some '.' =>
      let _ ← next
      blanks
      let k ← simpleKey steps
      blanks
      return k :: (← moreKeys steps)
    | _ => return []

def maxDepth : Nat := 79

/-- **A key**: its path, and its last part. -/
def key (steps : Nat) : Reader (List String × String) := do
  blanks
  let first ← simpleKey steps
  blanks
  let all := first :: (← moreKeys steps)
  if maxDepth < all.length then failure
  return (all.dropLast, all.getLast?.getD first)

end Reader
end Reconciliation.Toml
