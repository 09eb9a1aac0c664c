namespace ShellArgs

inductive Binary64 where
  | finite (negative : Bool) (mantissa : Nat) (exponent : Int)   -- ±mantissa * 2 ^ exponent
  | infinite (negative : Bool)
  | notANumber
deriving DecidableEq, Repr

namespace Binary64

def twoTo (n : Nat) : Nat :=
  Nat.pow 2 n

def tenTo (n : Nat) : Nat :=
  Nat.pow 10 n

def leastExponent : Int := -1074

def greatestExponent : Int := 971

-- Ties go to the even number.
def roundDiv (num den : Nat) : Nat :=
  let q := num / den
  let r := num % den
  if 2 * r < den then q
  else if den < 2 * r then q + 1
  else q + q % 2

def scale (num den : Nat) (e : Int) : Nat × Nat :=
  if 0 ≤ e then (num, den * twoTo e.toNat) else (num * twoTo (-e).toNat, den)

def ofFraction (negative : Bool) (num den : Nat) : Binary64 :=
  if num = 0 then .finite negative 0 leastExponent
  else
    -- The fraction lies strictly between `2 ^ (a - b - 1)` and `2 ^ (a - b + 1)`, for the
    -- logarithms `a` and `b` of its parts. So one of two exponents gives it 53 bits.
    let e := max ((num.log2 : Int) - den.log2 - 53) leastExponent
    let (n, d) := scale num den e
    let e := if n / d < twoTo 53 then e else e + 1
    let (n, d) := scale num den e
    let m := roundDiv n d
    let (m, e) := if m = twoTo 53 then (twoTo 52, e + 1) else (m, e)
    if greatestExponent < e then .infinite negative else .finite negative m e

def ofDecimal (negative : Bool) (digits : Nat) (exponent : Int) : Binary64 :=
  if digits = 0 then .finite negative 0 leastExponent
  else if 400 < exponent then .infinite negative
  else if exponent + digits.log2 < -400 then .finite negative 0 leastExponent
  else if 0 ≤ exponent then ofFraction negative (digits * tenTo exponent.toNat) 1
  else ofFraction negative digits (tenTo (-exponent).toNat)

def ofInt (n : Int) : Binary64 :=
  ofDecimal (n < 0) n.natAbs 0

def isFinite : Binary64 → Bool
  | .finite .. => true
  | _          => false

def isPositive : Binary64 → Bool
  | .finite negative m _ => !negative && m != 0
  | .infinite negative   => !negative
  | .notANumber          => false

def toInt? : Binary64 → Option Int
  | .finite negative m e =>
    let (n, d) := scale m 1 (-e)
    if n % d = 0 then some (if negative then -(n / d : Nat) else (n / d : Nat)) else none
  | _ => none

end Binary64

end ShellArgs
