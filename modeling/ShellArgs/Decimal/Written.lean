import ShellArgs.Decimal.Digits

namespace ShellArgs.Binary64

-- How digits become text. Numbers below `10 ^ -4`, and from `10 ^ wholeDigits` on, are
-- written with an exponent. A whole number without one ends in `wholeEnd`.
structure TextForm where
  wholeDigits : Int
  wholeEnd : String

-- The significant digits, and the position of the first one: `0.ddd * 10 ^ position`.
def significant (c : Nat) (k : Int) : List Char × Int :=
  let ds := Nat.toDigits 10 c
  ((ds.reverse.dropWhile (· == '0')).reverse, k + ds.length)

def exponentText (x : Int) : String :=
  let ds := String.ofList (Nat.toDigits 10 x.natAbs)
  (if x < 0 then "e-" else "e+") ++ (if x.natAbs < 10 then "0" ++ ds else ds)

def layout (f : TextForm) (ds : List Char) (position : Int) : String :=
  let text := String.ofList
  let zeros (n : Int) := text (List.replicate n.toNat '0')
  if position < -3 ∨ f.wholeDigits < position then
    text (ds.take 1) ++ (if ds.length ≤ 1 then "" else "." ++ text (ds.drop 1)) ++
      exponentText (position - 1)
  else if position ≤ 0 then "0." ++ zeros (-position) ++ text ds
  else if position < ds.length then
    text (ds.take position.toNat) ++ "." ++ text (ds.drop position.toNat)
  else text ds ++ zeros (position - ds.length) ++ f.wholeEnd

def written (f : TextForm) (digits : Nat → Int → Nat × Int) : Binary64 → String
  | .notANumber      => "nan"
  | .infinite neg    => sign neg ++ "inf"
  | .finite neg 0 _  => sign neg ++ "0" ++ f.wholeEnd
  | .finite neg m e  =>
    let (c, k) := digits m e
    let (ds, position) := significant c k
    sign neg ++ layout f ds position
where
  sign (neg : Bool) : String := if neg then "-" else ""

def toText (x : Binary64) : String :=
  x.written ⟨16, ".0"⟩ shortest

def toShortText (x : Binary64) : String :=
  x.written ⟨6, ""⟩ (rounded 6)

end ShellArgs.Binary64
