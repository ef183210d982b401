import Reconciliation.Power
import Reconciliation.Toml.Reader
/-!
# Reading TOML: numbers and moments

Integers have 64 bits.  Digits may be grouped by single underscores between them.  A float that is too large is refused
when it is positive; when it is negative it counts as infinite.

A moment is a date, a time of day, or a date and a time with or without an offset.  Its parts have to be in range: the
day exists in that month, the hour is below 24, the minute below 60, and the second may be 60.
-/
namespace Reconciliation.Toml.Reader

/-! ## Digits -/

/-- Digits with the underscores between them dropped, and what follows. -/
def groupedRest (isDigit : Char → Bool) : List Char → List Char × List Char
  | '_' :: d :: cs =>
    if isDigit d then
      let (ds, rest) := groupedRest isDigit cs
      (d :: ds, rest)
    else ([], '_' :: d :: cs)
  | d :: cs =>
    if isDigit d then
      let (ds, rest) := groupedRest isDigit cs
      (d :: ds, rest)
    else ([], d :: cs)
  | [] => ([], [])

def grouped (isDigit : Char → Bool) : Reader (List Char) := do
  let d ← next
  if !isDigit d then failure
  let ds ← fun cs => some (groupedRest isDigit cs)
  return d :: ds

def numberOf (base : Nat) (ds : List Char) : Nat := ds.foldl (fun n d => n * base + (hexValue? d).getD 0) 0

/-- Takes a sign, if there is one; gives whether it is a minus. -/
def sign : Reader Bool := do
  match ← peek? with
  | some '-' => (fun _ => true) <$> next
  | some '+' => (fun _ => false) <$> next
  | _ => return false

/-- Takes the digits of an integer: no zero stands in front of others. -/
def integerDigits : Reader (List Char) := do
  match ← peek? with
  | some '0' => (fun d => [d]) <$> next
  | _ => grouped Char.isDigit

/-! ## Integers -/

def inRange (n : Int) : Reader Toml :=
  if -(pow2 63 : Int) ≤ n ∧ n < (pow2 63 : Int) then return .integer n else failure

def basedInteger (mark : Char) (base : Nat) : Reader Toml := do
  literally ['0', mark]
  let ds ← grouped fun c => match hexValue? c with
    | some d => d < base
    | none => false
  inRange (numberOf base ds)

/-- **An integer.** -/
def integer : Reader Toml :=
  basedInteger 'x' 16 <|> basedInteger 'o' 8 <|> basedInteger 'b' 2 <|> do
    let negative ← sign
    let n := numberOf 10 (← integerDigits)
    inRange (if negative then -n else n)

/-! ## Floats -/

/-- Whether digits times a power of ten are too large for a double: at least halfway from the largest double to the
next power of two. -/
def overflows (ds : List Char) (exponent : Int) : Bool :=
  let ds := ds.dropWhile (· = '0')
  let size := ds.length + exponent
  if ds.isEmpty || size < 309 then false
  else if 309 < size then true
  else
    let n := numberOf 10 ds
    let limit := pow2 1024 - pow2 970
    if exponent < 0 then limit * pow10 exponent.natAbs ≤ n else limit ≤ n * pow10 exponent.natAbs

def fraction : Reader (List Char) := do
  literally ['.']
  grouped Char.isDigit

def exponent : Reader Int := do
  let e ← next
  if e ≠ 'e' && e ≠ 'E' then failure
  let negative ← sign
  let n := numberOf 10 (← grouped Char.isDigit)
  return if negative then -n else n

def finite : Reader Unit := do
  let negative ← sign
  let whole ← integerDigits
  let part ← maybe fraction
  let power ← maybe exponent
  if part.isNone && power.isNone then failure
  let part := part.getD []
  if !negative && overflows (whole ++ part) (power.getD 0 - part.length) then failure

def notFinite : Reader Unit := do
  let _ ← sign
  literally ['i', 'n', 'f'] <|> literally ['n', 'a', 'n']

/-- **A float.** -/
def float : Reader Toml := Toml.float <$> written (finite <|> notFinite)

/-! ## Moments -/

def fixed : Nat → Nat → Reader Nat
  | 0, n => return n
  | digits + 1, n => do
    let d ← next
    if d.isDigit then fixed digits (n * 10 + (d.toNat - 48)) else failure

def twoDigits (low high : Nat) : Reader Nat := do
  let n ← fixed 2 0
  if low ≤ n && n ≤ high then return n else failure

def daysIn (year month : Nat) : Nat :=
  if month = 2 then if year % 4 = 0 && (year % 100 ≠ 0 || year % 400 = 0) then 29 else 28
  else if month = 4 || month = 6 || month = 9 || month = 11 then 30
  else 31

def date : Reader Unit := do
  let year ← fixed 4 0
  literally ['-']
  let month ← twoDigits 1 12
  literally ['-']
  let _ ← twoDigits 1 (daysIn year month)

def time : Reader Unit := do
  let _ ← twoDigits 0 23
  literally [':']
  let _ ← twoDigits 0 59
  literally [':']
  let _ ← twoDigits 0 60
  let _ ← maybe (do
    literally ['.']
    let ds ← takeWhile Char.isDigit
    if ds.isEmpty then failure)

def offset : Reader Unit := do
  let c ← next
  if c = 'Z' || c = 'z' then return ()
  else if c = '+' || c = '-' then
    let _ ← twoDigits 0 23
    literally [':']
    let _ ← twoDigits 0 59
  else failure

def timeBehind : Reader Unit := do
  let c ← next
  if c = 'T' || c = 't' || c = ' ' then
    time
    let _ ← maybe offset
  else failure

/-- **A moment.** -/
def moment : Reader Toml := Toml.moment <$> written ((do date; let _ ← maybe timeBehind) <|> time)

/-- **A number or a moment.** -/
def number : Reader Toml := moment <|> float <|> integer

end Reconciliation.Toml.Reader
