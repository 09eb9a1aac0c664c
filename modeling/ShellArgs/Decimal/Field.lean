import ShellArgs.Decimal.Literal

-- Numbers given as text in the fields of records and in the arguments of the program. They
-- have ASCII digits and may have blanks around them. An integer may also have zeros in front
-- and zeros as its places.

namespace ShellArgs.Decimal

-- Underscores stand neither at the ends of a number nor in pairs.
def joined? (s : List Char) : Option (List Char) :=
  if s.head? == some '_' || s.getLast? == some '_' || Text.hasPair '_' s then none
  else some (s.filter (· != '_'))

def isPlain (s : List Char) : Bool :=
  s.all fun c => c.toNat < 0x80 && !Text.isBlank c && c != '_'

def plainFloat? (s : List Char) : Option Binary64 :=
  if isPlain s then readFloat? s else none

-- Blanks and underscores are not allowed together.
def fieldFloat? (s : List Char) : Option Binary64 :=
  plainFloat? (unpad s) <|> (joined? s).bind plainFloat?

def isLeadingDigit (c : Char) : Bool :=
  c.isDigit && c != '0'

-- What is left of a number without the zeros in front and the underscores among them. The
-- number itself starts with another digit or, behind a zero, with a minus sign. If nothing
-- or a point follows, then the last of the zeros and underscores stays.
def withoutZeros? : List Char → Option (List Char)
  | []     => none
  | c :: s => if c = '0' then go c s else if isLeadingDigit c then some (c :: s) else none
where
  go (last : Char) : List Char → Option (List Char)
    | []     => some [last]
    | c :: s =>
      if c = '0' ∨ c = '_' then go c s
      else if c = '.' then some (last :: c :: s)
      else if isLeadingDigit c ∨ c = '-' then some (c :: s)
      else none

def withoutPlaces (s : List Char) : List Char :=
  match (s.dropWhile (· != '.')).drop 1 with
  | []     => s
  | places => if places.all (· == '0') then s.takeWhile (· != '.') else s

def natural? : List Char → Option Nat
  | ['0']  => some 0
  | c :: s =>
    if isLeadingDigit c && s.all Char.isDigit && s.length < mostDigits then
      ((c :: s).mapM Text.digitValue?).map Text.digitsValue
    else none
  | []     => none

def integer? : List Char → Option Int
  | '-' :: s => (natural? s).map fun n => -(n : Int)
  | s        => (natural? s).map Int.ofNat

-- Zeros are taken off behind a sign, and a minus sign goes back in front of what they leave.
-- A number is refused if it has another minus sign behind its zeros then.
def fieldInt? (s : List Char) : Option Int :=
  let (negative, s) := sign (unpad s)
  (withoutZeros? s).bind fun s =>
  (joined? (withoutPlaces s)).bind fun s =>
  integer? (if negative then '-' :: s else s)

end ShellArgs.Decimal
