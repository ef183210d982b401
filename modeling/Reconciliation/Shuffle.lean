/-!
# Shuffling by a seed

The order in which a pass visits entities can be shuffled.  The same seed always gives the same order: the words of a
ChaCha stream with twelve rounds, keyed by the seed, choose the swaps of a Fisher–Yates shuffle from the back.

A swap partner below `n` comes from a word `v` as the upper half of `v * n`.  Words whose lower half falls into the
last, incomplete zone are drawn again, so every partner is equally likely.
-/
namespace Reconciliation.Shuffle

/-! ## The stream of words -/

def turn (x : UInt32) (n : UInt32) : UInt32 := (x <<< n) ||| (x >>> (32 - n))

def quarterRound (a b c d : Nat) (s : Array UInt32) : Array UInt32 :=
  let x := s[a]! + s[b]!
  let w := turn (s[d]! ^^^ x) 16
  let z := s[c]! + w
  let y := turn (s[b]! ^^^ z) 12
  let x := x + y
  let w := turn (w ^^^ x) 8
  let z := z + w
  let y := turn (y ^^^ z) 7
  (((s.set! a x).set! b y).set! c z).set! d w

/-- Two rounds: the columns of a block, then its diagonals. -/
def doubleRound (s : Array UInt32) : Array UInt32 :=
  let s := quarterRound 3 7 11 15 (quarterRound 2 6 10 14 (quarterRound 1 5 9 13 (quarterRound 0 4 8 12 s)))
  quarterRound 3 4 9 14 (quarterRound 2 7 8 13 (quarterRound 1 6 11 12 (quarterRound 0 5 10 15 s)))

/-- The state before the rounds: the constants, the key, the number of the block. -/
def initialBlock (key : Array UInt32) (number : Nat) : Array UInt32 :=
  #[0x61707865, 0x3320646e, 0x79622d32, 0x6b206574] ++ key ++ #[number.toUInt32, (number / UInt32.size).toUInt32, 0, 0]

/-- **The block of a number** under a key: sixteen words. -/
def block (key : Array UInt32) (number : Nat) : Array UInt32 :=
  let start := initialBlock key number
  let mixed := (List.range 6).foldl (fun s _ => doubleRound s) start
  start.zipWith (· + ·) mixed

/-- The next state of the generator that spreads a seed over a key. -/
def spread (state : UInt64) : UInt64 := state * 6364136223846793005 + 11634580027462260723

/-- The word of a state: some of its bits, turned right by some others. -/
def spreadWord (state : UInt64) : UInt32 :=
  let x := (((state >>> 18) ^^^ state) >>> 27).toUInt32
  let n := (state >>> 59).toUInt32
  (x >>> n) ||| (x <<< ((32 - n) % 32))

def spreadWords : Nat → UInt64 → List UInt32
  | 0, _ => []
  | n + 1, state => spreadWord (spread state) :: spreadWords n (spread state)

def keyOf (seed : UInt64) : Array UInt32 := (spreadWords 8 seed).toArray

/-- **A stream of words**: the key, the number of the next block, and what is left of the last one. -/
structure Stream where
  key : Array UInt32
  number : Nat
  left : List UInt32

def Stream.ofSeed (seed : UInt64) : Stream := ⟨keyOf seed, 0, []⟩

def Stream.next (s : Stream) : UInt32 × Stream :=
  match s.left with
  | w :: left => (w, { s with left := left })
  | [] =>
    match (block s.key s.number).toList with
    | w :: left => (w, ⟨s.key, s.number + 1, left⟩)
    | [] => (0, s)

/-! ## The swaps -/

/-- The largest lower half of a product with `n` that still lies in a complete zone. -/
def zone (n : Nat) : Nat := (n <<< (31 - n.log2)) % UInt32.size - 1

/-- A number below `n`.  At least every second word is good, so the tries do not run out. -/
def below (n : Nat) : Nat → Stream → Nat × Stream
  | 0, s => (0, s)
  | tries + 1, s =>
    let (v, s) := s.next
    let product := v.toNat * n
    if product % UInt32.size ≤ zone n then (product / UInt32.size, s) else below n tries s

/-- Swaps each place from the back with one that is not behind it; `i` places are left. -/
def swaps {α : Type} : Nat → Array α → Stream → Array α
  | 0, a, _ => a
  | i + 1, a, s =>
    if i = 0 then a
    else
      let (j, s) := below (i + 1) 256 s
      swaps i (a.swapIfInBounds i j) s

end Shuffle

/-- **A list in the order that a seed gives it.** -/
def shuffle {α : Type} (seed : UInt64) (l : List α) : List α :=
  (Shuffle.swaps l.length l.toArray (.ofSeed seed)).toList

end Reconciliation
