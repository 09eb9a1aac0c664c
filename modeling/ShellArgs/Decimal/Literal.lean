import ShellArgs.Decimal.Binary
import ShellArgs.Text.Blank
import ShellArgs.Text.Digit

-- Numbers as they are written by hand: blanks around them, a sign, the digits of any
-- script, and single underscores between digits.

namespace ShellArgs.Decimal

-- The separators U+001C to U+001F are blank, but they may not surround a number.
def isPadding (c : Char) : Bool :=
  Text.isBlank c && !(0x1C ≤ c.toNat && c.toNat ≤ 0x1F)

def unpad (s : List Char) : List Char :=
  ((s.dropWhile isPadding).reverse.dropWhile isPadding).reverse

def sign : List Char → Bool × List Char
  | '-' :: s => (true, s)
  | '+' :: s => (false, s)
  | s        => (false, s)

def moreDigits : List Char → List Nat × List Char
  | '_' :: c :: s =>
    match Text.digitValue? c with
    | some d => ((moreDigits s).map (d :: ·) id)
    | none   => ([], '_' :: c :: s)
  | c :: s =>
    match Text.digitValue? c with
    | some d => ((moreDigits s).map (d :: ·) id)
    | none   => ([], c :: s)
  | [] => ([], [])

def digits : List Char → List Nat × List Char
  | '_' :: s => ([], '_' :: s)
  | s        => moreDigits s

def mostDigits : Nat := 4300

def readInt? (s : List Char) : Option Int :=
  let (negative, s) := sign (unpad s)
  match digits s with
  | ([], _)      => none
  | (ds, [])     =>
    if mostDigits < ds.length then none
    else some (if negative then -Text.digitsValue ds else Text.digitsValue ds)
  | (_, _ :: _)  => none

def exponent? : List Char → Option Int
  | []     => some 0
  | c :: s =>
    if c = 'e' ∨ c = 'E' then
      let (negative, s) := sign s
      match digits s with
      | ([], _) => none
      | (ds, []) => some (if negative then -Text.digitsValue ds else Text.digitsValue ds)
      | (_, _ :: _) => none
    else none

def fraction? (negative : Bool) (s : List Char) : Option Binary64 :=
  let (whole, s) := digits s
  let (places, s) := match s with
    | '.' :: s => digits s
    | s        => ([], s)
  if whole.isEmpty && places.isEmpty then none
  else (exponent? s).map fun x =>
    .ofDecimal negative (Text.digitsValue (whole ++ places)) (x - places.length)

def readFloat? (s : List Char) : Option Binary64 :=
  let (negative, s) := sign (unpad s)
  match String.ofList (s.map Char.toLower) with
  | "inf" | "infinity" => some (.infinite negative)
  | "nan"              => some .notANumber
  | _                  => fraction? negative s

end ShellArgs.Decimal
