import Reconciliation.Power
/-!
# Double precision numbers

A number that is not an integer is read and written in double precision: 53 binary digits, exponents from -1074 to 971,
and the nearest such number to a quotient, a tie going to the even one.  Here a double is its 64 bits and everything
is exact arithmetic on natural numbers.

* `nearest num den` is the double nearest to a quotient; `mul` and `div` round the exact result once.
* `shortest` finds the fewest decimal digits that read back as the same double, and of those the nearest to it.
* `render` writes these digits: positional from 10⁻⁵ up to 10¹⁶, always with a point, and with an exponent beyond.
-/
namespace Reconciliation

/-- **A double precision number**, by its bits. -/
structure Double where
  bits : UInt64
deriving DecidableEq, Inhabited

namespace Double

/-! ## Rounding -/

/-- Positive infinity, the result of an overflow. -/
def infinity : Double := ⟨0x7ff0000000000000⟩

def zero : Double := ⟨0⟩

/-- The number `m · 2 ^ (e - 1074)` for an `m` below `2 ^ 53` that is not below `2 ^ 52` unless `e` is zero. -/
def pack (m e : Nat) : Double :=
  if 2046 ≤ e then infinity
  else if m < pow2 52 then ⟨m.toUInt64⟩
  else ⟨((e + 1) * pow2 52 + (m - pow2 52)).toUInt64⟩

/-- The quotient rounded to the nearest natural number, a tie going to the even one. -/
def roundHalfEven (num den : Nat) : Nat :=
  let q := num / den
  let r := num % den
  if 2 * r < den then q else if den < 2 * r then q + 1 else q + q % 2

/-- `2 ^ (e - 1074)` times a denominator, both sides kept natural: the pair to divide for the significand at `e`. -/
def scaled (num den e : Nat) : Nat × Nat :=
  if e ≤ 1074 then (num * pow2 (1074 - e), den) else (num, den * pow2 (e - 1074))

/-- **The double nearest to a quotient** of natural numbers. -/
def nearest (num den : Nat) : Double :=
  if num = 0 then zero
  else
    -- the quotient lies between 2 ^ (top - 1) and 2 ^ (top + 1), and top is counted from -1074
    let top := num.log2 + 1074 - den.log2
    let e := top - 53
    let s := scaled num den e
    let e := if pow2 53 ≤ s.1 / s.2 then e + 1 else e
    let s := scaled num den e
    let m := roundHalfEven s.1 s.2
    if m = pow2 53 then pack (pow2 52) (e + 1) else pack m e

/-- The significand `m` and the exponent `e` of a finite number `m · 2 ^ (e - 1074)`, without its sign. -/
def parts (x : Double) : Nat × Nat :=
  let exponent := (x.bits.toNat / pow2 52) % pow2 11
  let fraction := x.bits.toNat % pow2 52
  if exponent = 0 then (fraction, 0) else (pow2 52 + fraction, exponent - 1)

def isNegative (x : Double) : Bool := x.bits.toNat / pow2 63 = 1

def neg (x : Double) : Double := ⟨x.bits ^^^ 0x8000000000000000⟩

/-- A finite number without its sign as a quotient. -/
def ratio (x : Double) : Nat × Nat :=
  let p := x.parts
  if p.2 ≤ 1074 then (p.1, pow2 (1074 - p.2)) else (p.1 * pow2 (p.2 - 1074), 1)

/-- The rounded product of two numbers that are not negative. -/
def mul (x y : Double) : Double := nearest (x.ratio.1 * y.ratio.1) (x.ratio.2 * y.ratio.2)

def div (x y : Double) : Double := nearest (x.ratio.1 * y.ratio.2) (x.ratio.2 * y.ratio.1)

def tenTo (n : Nat) : Double := nearest (pow10 n) 1

/-- **A significand times a power of ten**, in double arithmetic: the significand is rounded, then multiplied or
divided by a rounded power of ten.  Powers above 10³⁰⁸ go in steps.  There is no result when it overflows. -/
def ofDecimal (steps : Nat) (x : Double) (exponent : Int) : Option Double :=
  if exponent.natAbs ≤ 308 then
    if 0 ≤ exponent then
      let y := x.mul (tenTo exponent.natAbs)
      if y = infinity then none else some y
    else some (x.div (tenTo exponent.natAbs))
  else if x = zero then some zero
  else if 0 ≤ exponent then none
  else match steps with
    | 0 => some zero
    | steps + 1 => ofDecimal steps (x.div (tenTo 308)) (exponent + 308)

/-! ## Shortest text -/

/-- The interval of numbers that read back as `m · 2 ^ (e - 1074)`, as quotients with one denominator: the lower end,
the number, the upper end and the denominator.  Below a power of two the next number is half as far away. -/
def interval (m e : Nat) : Nat × Nat × Nat × Nat :=
  let lower := if m = pow2 52 && 0 < e then 1 else 2
  if e ≤ 1076 then (4 * m - lower, 4 * m, 4 * m + 2, pow2 (1076 - e))
  else ((4 * m - lower) * pow2 (e - 1076), 4 * m * pow2 (e - 1076), (4 * m + 2) * pow2 (e - 1076), 1)

/-- The largest `d` with `10 ^ d` not above a quotient, found upwards from a number not above it. -/
def floorLog10 : Nat → Int → Nat → Nat → Int
  | 0, d, _, _ => d
  | steps + 1, d, num, den =>
    let fits :=
      if 0 ≤ d + 1 then decide (den * pow10 (d + 1).toNat ≤ num) else decide (den ≤ num * pow10 (-(d + 1)).toNat)
    if fits then floorLog10 steps (d + 1) num den else d

/-- The grid point of step `10 ^ k` nearest to the middle of an interval among the two around it that lie in the
interval; the ends count when `closed`. -/
def gridPoint? (interval : Nat × Nat × Nat × Nat) (closed : Bool) (k : Int) : Option Nat :=
  let (low, mid, high, den) := interval
  -- numerators of everything in units of 10 ^ k / unit
  let up := if 0 ≤ k then 1 else pow10 (-k).toNat
  let unit := if 0 ≤ k then den * pow10 k.toNat else den
  let below := mid * up / unit
  let inside (p : Nat) : Bool :=
    if closed then low * up ≤ p * unit && p * unit ≤ high * up else low * up < p * unit && p * unit < high * up
  let above := below + 1
  let belowGap := mid * up - below * unit
  let aboveGap := above * unit - mid * up
  match inside below && 0 < below, inside above with
  | true, true => some (if belowGap < aboveGap then below else if aboveGap < belowGap then above else below + below % 2)
  | true, false => some below
  | false, true => some above
  | false, false => none

/-- The first grid from the coarsest on that has a point in the interval, with that point. -/
def searchGrid (interval : Nat × Nat × Nat × Nat) (closed : Bool) : Nat → Int → Nat × Int
  | 0, k => (interval.2.1, k)
  | steps + 1, k =>
    match gridPoint? interval closed k with
    | some p => (p, k)
    | none => searchGrid interval closed steps (k - 1)

/-- **The fewest digits that read back** as a positive number: the number is `digits · 10 ^ exponent`. -/
def shortest (x : Double) : Nat × Int :=
  let (m, e) := x.parts
  let i := interval m e
  let (num, den) := x.ratio
  -- 30103 / 100000 is log 2 to the base 10 from above; the start is at most two below the answer
  let start : Int := (((num.log2 : Int) - den.log2) * 30103) / 100000 - 2
  let d := floorLog10 8 start num den
  searchGrid i (m % 2 = 0) 18 d

/-- The digits without trailing zeros, and the exponent that goes with them. -/
def trim : Nat → Nat → Int → Nat × Int
  | 0, digits, k => (digits, k)
  | steps + 1, digits, k => if digits % 10 = 0 then trim steps (digits / 10) (k + 1) else (digits, k)

/-- The text of a positive number from its digits: `point` is the number of digits before the point. -/
def renderDigits (digits : String) (point : Int) : String :=
  let n := digits.length
  if -5 < point && point ≤ 16 then
    if (n : Int) ≤ point then digits ++ "".pushn '0' (point.toNat - n) ++ ".0"
    else if 0 < point then
      String.ofList (digits.toList.take point.toNat) ++ "." ++ String.ofList (digits.toList.drop point.toNat)
    else "0." ++ "".pushn '0' (-point).toNat ++ digits
  else
    let mantissa :=
      if n = 1 then digits
      else String.ofList (digits.toList.take 1) ++ "." ++ String.ofList (digits.toList.drop 1)
    let exponent := point - 1
    let size := toString exponent.natAbs
    mantissa ++ (if exponent < 0 then "e-" else "e+") ++ (if size.length < 2 then "0" ++ size else size)

/-- **The text of a finite number**: the fewest digits that read back, with a point or an exponent. -/
def render (x : Double) : String :=
  let sign := if x.isNegative then "-" else ""
  if x.parts.1 = 0 then sign ++ "0.0"
  else
    let (digits, k) := x.shortest
    let (digits, k) := trim 20 digits k
    let text := toString digits
    sign ++ renderDigits text (text.length + k)

end Double
end Reconciliation
