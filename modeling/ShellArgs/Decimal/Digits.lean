import ShellArgs.Decimal.Binary

namespace ShellArgs.Binary64

-- `a * 10 ^ i` against `b * 2 ^ j`.
def compareScaled (a : Nat) (i : Int) (b : Nat) (j : Int) : Ordering :=
  compare (a * tenTo i.toNat * twoTo (-j).toNat) (b * twoTo j.toNat * tenTo (-i).toNat)

-- The position of the leading digit: the number lies between `10 ^ (p - 1)` and `10 ^ p`.
def leadingPosition (m : Nat) (e : Int) : Int :=
  let p := Int.fdiv ((m.log2 + e) * 30103) 100000
  if compareScaled 1 p m e == .gt then p
  else if compareScaled 1 (p + 1) m e == .gt then p + 1
  else p + 2

def floorIn (k : Int) (m : Nat) (e : Int) : Nat :=
  (m * twoTo e.toNat * tenTo (-k).toNat) / (tenTo k.toNat * twoTo (-e).toNat)

def nearestIn (k : Int) (m : Nat) (e : Int) : Nat :=
  roundDiv (m * twoTo e.toNat * tenTo (-k).toNat) (tenTo k.toNat * twoTo (-e).toNat)

-- Whether `c * 10 ^ k` is read as this number. That holds between the midpoints to its two
-- neighbours, and on a midpoint for an even mantissa. The gap below a power of two is half
-- the gap above it.
def readsBack (c : Nat) (k : Int) (m : Nat) (e : Int) : Bool :=
  let low  := if m = twoTo 52 ∧ leastExponent < e then 4 * m - 1 else 4 * m - 2
  let high := 4 * m + 2
  match compareScaled c k low (e - 2), compareScaled c k high (e - 2) with
  | .gt, .lt => true
  | .eq, _   => m % 2 == 0
  | _,   .eq => m % 2 == 0
  | _,   _   => false

-- The digits `c` of the number at `10 ^ k`, if one of the two neighbours of the number on
-- this grid reads back. The nearer one is preferred, and of two equally near the even one.
def onGrid? (k : Int) (m : Nat) (e : Int) : Option Nat :=
  let c := floorIn k m e
  let low  := readsBack c k m e
  let high := readsBack (c + 1) k m e
  if low && high then
    match compareScaled (2 * c + 1) k (2 * m) e with
    | .gt => some c
    | .lt => some (c + 1)
    | .eq => some (c + c % 2)
  else if low then some c
  else if high then some (c + 1)
  else none

def shortest (m : Nat) (e : Int) : Nat × Int :=
  go 17 1
where
  p := leadingPosition m e
  go : Nat → Int → Nat × Int
    | 0,     n => (nearestIn (p - n) m e, p - n)
    | i + 1, n =>
      match onGrid? (p - n) m e with
      | some c => (c, p - n)
      | none   => go i (n + 1)

def rounded (n : Nat) (m : Nat) (e : Int) : Nat × Int :=
  let k := leadingPosition m e - n
  (nearestIn k m e, k)

end ShellArgs.Binary64
