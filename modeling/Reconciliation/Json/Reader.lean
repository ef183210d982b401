import Reconciliation.Json.Basic
/-!
# Reading JSON

A reader takes characters from the front of a text and stops at the first thing that is wrong.  The fault says which of
three ways it went wrong: the text ends too early, it is not JSON, or it is JSON of another shape than was asked for.
What is asked for is decided while reading (`record`, `listOf`, `text`, ...), so a fault of shape early in a text wins
over a broken bracket behind it.

The form is strict: no comments, no leading zeros, no commas at the end, no control characters inside texts, and only
blank, tab, line feed and carriage return between tokens.  Two things are looser in a value that nobody asked for
(`skip`) than in one that is kept (`value`): halves of surrogate pairs may stand alone and numbers may be of any size
there, and brackets may nest to any depth.

Every reader that repeats something takes a number of steps, the length of the text at the start.  Each step takes a
character, so the steps never run out before the text does.
-/
namespace Reconciliation.Json

inductive Fault
  /-- It is not JSON. -/
  | malformed
  /-- The text ends too early. -/
  | cutShort
  /-- It is JSON of another shape than was asked for. -/
  | misshapen
deriving DecidableEq, Inhabited

/-- **A reader**: takes characters from the front of a text. -/
abbrev Reader (α : Type) := StateT (List Char) (Except Fault) α

namespace Reader

/-! ## Characters -/

def peek? : Reader (Option Char) := fun cs => .ok (cs.head?, cs)

def next? : Reader (Option Char) := fun cs => .ok (cs.head?, cs.tail)

def advance : Reader Unit := fun cs => .ok ((), cs.tail)

def fail {α : Type} (f : Fault) : Reader α := fun _ => .error f

/-- The next character, which stays; it is a fault of the given kind when there is none. -/
def peekOr (f : Fault) : Reader Char := do
  match ← peek? with
  | some c => return c
  | none => fail f

def isBlank (c : Char) : Bool := c = ' ' || c = '\n' || c = '\t' || c = '\r'

def blanks : Reader Unit := fun cs => .ok ((), cs.dropWhile isBlank)

def token? : Reader (Option Char) := do
  blanks
  peek?

/-- The first character after the blanks, which stays; the text is cut short when there is none. -/
def token : Reader Char := do
  match ← token? with
  | some c => return c
  | none => fail .cutShort

def digits : Reader (List Char) := fun cs => .ok (cs.takeWhile Char.isDigit, cs.dropWhile Char.isDigit)

def letters : List Char → Reader Unit
  | [] => return ()
  | c :: rest => do
    match ← next? with
    | none => fail .cutShort
    | some d => if c = d then letters rest else fail .malformed

/-! ## Numbers -/

def maxWord : Nat := UInt64.size - 1

/-- Appends digits to a significand while it stays in 64 bits, and gives the digits that are left over. -/
def absorb (significand : Nat) : List Char → Nat × List Char
  | [] => (significand, [])
  | c :: rest =>
    let wider := significand * 10 + (c.toNat - 48)
    if wider ≤ maxWord then absorb wider rest else (significand, c :: rest)

/-- The double of a sign, a significand and a power of ten.  One that is too large is malformed. -/
def doubleOf (negative : Bool) (significand : Nat) (exponent : Int) : Reader JsonNumber := do
  match Double.ofDecimal 8 (Double.nearest significand 1) exponent with
  | none => fail .malformed
  | some x => return .double (if negative then x.neg else x)

/-- The exponent after its letter.  One of more than 31 bits is infinite. -/
def exponentPart (negative : Bool) (significand : Nat) (start : Int) : Reader JsonNumber := do
  advance
  let mark ← peek?
  if mark = some '+' || mark = some '-' then advance
  match ← peek? with
  | none => fail .cutShort
  | some c =>
    if !c.isDigit then fail .malformed
    let exponent : Nat := (← digits).foldl (fun n c => n * 10 + (c.toNat - 48)) 0
    if exponent < pow2 31 then
      doubleOf negative significand (if mark = some '-' then start - (exponent : Int) else start + (exponent : Int))
    else if significand ≠ 0 && mark ≠ some '-' then fail .malformed
    else return .double (if negative then Double.zero.neg else .zero)

def maybeExponent (negative : Bool) (significand : Nat) (start : Int) : Reader JsonNumber := do
  match ← peek? with
  | some 'e' | some 'E' => exponentPart negative significand start
  | _ => doubleOf negative significand start

/-- The digits after the point.  Those that do not fit into 64 bits any more do not count. -/
def fractionPart (negative : Bool) (significand : Nat) (start : Int) : Reader JsonNumber := do
  advance
  let ds ← digits
  if ds.isEmpty then
    match ← peek? with
    | none => fail .cutShort
    | some _ => fail .malformed
  let (wider, left) := absorb significand ds
  maybeExponent negative wider (start - (ds.length - left.length : Nat))

/-- **A number after its sign.** -/
def number (negative : Bool) : Reader JsonNumber := do
  match ← next? with
  | none => fail .cutShort
  | some c =>
    if !c.isDigit then fail .malformed
    let more ← digits
    if c = '0' && !more.isEmpty then fail .malformed
    let (significand, left) := absorb (c.toNat - 48) more
    match ← peek? with
    | some '.' => fractionPart negative significand left.length
    | some 'e' | some 'E' => exponentPart negative significand left.length
    | _ =>
      if !left.isEmpty then doubleOf negative significand left.length
      else if !negative then return .int significand
      else if significand = 0 || pow2 63 < significand then return .double (Double.nearest significand 1).neg
      else return .int (-significand)

/-! ## Texts -/

def hexValue? (c : Char) : Option Nat :=
  if c.isDigit then some (c.toNat - 48)
  else if 'a' ≤ c && c ≤ 'f' then some (c.toNat - 87)
  else if 'A' ≤ c && c ≤ 'F' then some (c.toNat - 55)
  else none

def byteSize (cs : List Char) : Nat := cs.foldl (fun n c => n + c.utf8Size) 0

/-- Four hexadecimal digits.  The text is cut short when it has less than four bytes left. -/
def hexUnit : Reader Nat := fun cs =>
  match cs with
  | a :: b :: c :: d :: rest =>
    match hexValue? a, hexValue? b, hexValue? c, hexValue? d with
    | some a, some b, some c, some d => .ok (a * 4096 + b * 256 + c * 16 + d, rest)
    | _, _, _, _ => .error .malformed
  | _ => .error (if byteSize cs < 4 then .cutShort else .malformed)

def escape? (c : Char) : Option Char :=
  if c = '"' || c = '\\' || c = '/' then some c
  else if c = 'b' then some '\x08'
  else if c = 'f' then some '\x0c'
  else if c = 'n' then some '\n'
  else if c = 'r' then some '\r'
  else if c = 't' then some '\t'
  else none

def expect (c : Char) : Reader Unit := do
  let d ← peekOr .cutShort
  if c = d then advance else fail .malformed

/-- The character of an escape by number, which may take two surrogates. -/
def unicodeEscape : Reader Char := do
  let high ← hexUnit
  if high < 0xD800 || 0xDFFF < high then return Char.ofNat high
  if 0xDC00 ≤ high then fail .malformed
  expect '\\'
  expect 'u'
  let low ← hexUnit
  if low < 0xDC00 || 0xDFFF < low then fail .malformed
  return Char.ofNat (0x10000 + (high - 0xD800) * 0x400 + (low - 0xDC00))

/-- The rest of a text behind its opening quote; `kept` has the characters so far, the last one first. -/
def textRest (kept : List Char) : Nat → Reader String
  | 0 => fail .cutShort
  | steps + 1 => do
    match ← next? with
    | none => fail .cutShort
    | some c =>
      if c = '"' then return String.ofList kept.reverse
      else if c = '\\' then
        match ← next? with
        | none => fail .cutShort
        | some 'u' => textRest ((← unicodeEscape) :: kept) steps
        | some e =>
          match escape? e with
          | some d => textRest (d :: kept) steps
          | none => fail .malformed
      else if c.toNat < 32 then fail .malformed
      else textRest (c :: kept) steps

def skipTextRest : Nat → Reader Unit
  | 0 => fail .cutShort
  | steps + 1 => do
    match ← next? with
    | none => fail .cutShort
    | some c =>
      if c = '"' then return ()
      else if c = '\\' then
        match ← next? with
        | none => fail .cutShort
        | some 'u' =>
          let _ ← hexUnit
          skipTextRest steps
        | some e => if (escape? e).isSome then skipTextRest steps else fail .malformed
      else if c.toNat < 32 then fail .malformed
      else skipTextRest steps

/-! ## Lists and objects -/

/-- Items up to the closing bracket, which is taken; `first` says that none was read yet. -/
def itemsRest {α : Type} (item : Reader α) (kept : List α) (first : Bool) : Nat → Reader (List α)
  | 0 => fail .cutShort
  | steps + 1 => do
    let c ← token
    if c = ']' then
      advance
      return kept.reverse
    if !first then
      if c ≠ ',' then fail .malformed
      advance
      if (← token) = ']' then fail .malformed
    itemsRest item ((← item) :: kept) false steps

/-- Takes the comma between members and looks for the next key; no key is left before a closing bracket. -/
def hasKey (first : Bool) : Reader Bool := do
  let c ← token
  if c = '\x7d' then return false
  let c ← if first then pure c else if c = ',' then advance *> token else fail .malformed
  if c = '"' then
    advance
    return true
  fail .malformed

def colon : Reader Unit := do
  if (← token) = ':' then advance else fail .malformed

/-- Members up to the closing bracket, which is taken.  `member` reads what stands behind the key and folds it into
what was read before. -/
def membersRest {σ : Type} (member : String → σ → Reader σ) (state : σ) (first : Bool) : Nat → Reader σ
  | 0 => fail .cutShort
  | steps + 1 => do
    if ← hasKey first then
      let key ← textRest [] (steps + 1)
      membersRest member (← member key state) false steps
    else
      advance
      return state

def scalar (steps : Nat) (c : Char) : Reader Json := do
  if c = 'n' then
    letters ['n', 'u', 'l', 'l']
    return .null
  else if c = 't' then
    letters ['t', 'r', 'u', 'e']
    return .bool true
  else if c = 'f' then
    letters ['f', 'a', 'l', 's', 'e']
    return .bool false
  else if c = '-' then
    advance
    return .num (← number true)
  else if c.isDigit then return .num (← number false)
  else if c = '"' then
    advance
    return .str (← textRest [] steps)
  else fail .malformed

/-- **A value that is kept.**  `room` is how deep brackets may still nest; more is malformed.  Of two members for one
key the later counts. -/
def value (steps : Nat) : Nat → Reader Json
  | 0 => do
    let c ← token
    if c = '[' || c = '\x7b' then fail .malformed else scalar steps c
  | room + 1 => do
    let c ← token
    if c = '[' then
      advance
      return .arr (← itemsRest (value steps room) [] true steps)
    else if c = '\x7b' then
      advance
      let members ← membersRest
        (fun key (m : SortedMap String Json) => do
          colon
          return m.insert key (← value steps room))
        .empty true steps
      return .obj members.toList
    else scalar steps c

/-! ## Values that are not kept -/

/-- Drops a number after its sign; only its grammar is looked at. -/
def skipNumber : Reader Unit := do
  match ← next? with
  | none => fail .malformed
  | some c =>
    if !c.isDigit then fail .malformed
    let more ← digits
    if c = '0' && !more.isEmpty then fail .malformed
    if (← peek?) = some '.' then
      advance
      if (← digits).isEmpty then fail .malformed
    let e ← peek?
    if e = some 'e' || e = some 'E' then
      advance
      let mark ← peek?
      if mark = some '+' || mark = some '-' then advance
      if (← digits).isEmpty then fail .malformed

/-- Drops members up to the closing bracket; `item` drops a value. -/
def skipMembers (item : Reader Unit) (first : Bool) : Nat → Reader Unit
  | 0 => fail .cutShort
  | steps + 1 => do
    if ← hasKey first then
      skipTextRest (steps + 1)
      colon
      item
      skipMembers item false steps
    else advance

/-- **A value that nobody asked for**, which is dropped. -/
def skip : Nat → Reader Unit
  | 0 => fail .cutShort
  | steps + 1 => do
    let c ← token
    if c = 'n' then letters ['n', 'u', 'l', 'l']
    else if c = 't' then letters ['t', 'r', 'u', 'e']
    else if c = 'f' then letters ['f', 'a', 'l', 's', 'e']
    else if c = '-' then
      advance
      skipNumber
    else if c.isDigit then skipNumber
    else if c = '"' then
      advance
      skipTextRest (steps + 1)
    else if c = '[' then
      advance
      let _ ← itemsRest (skip steps) [] true (steps + 1)
    else if c = '\x7b' then
      advance
      skipMembers (skip steps) true (steps + 1)
    else fail .malformed

/-! ## Whole texts -/

def run {α : Type} (reader : Nat → Reader α) (text : String) : Except Fault α := do
  let cs := text.toList
  let (a, rest) ← StateT.run (reader (cs.length + 1)) cs
  if (rest.dropWhile isBlank).isEmpty then return a else .error .malformed

end Reader

/-- **Reads a JSON value** whose brackets nest at most `depth` deep. -/
def parse (depth : Nat) (text : String) : Except Fault Json := Reader.run (fun steps => Reader.value steps depth) text

end Reconciliation.Json
