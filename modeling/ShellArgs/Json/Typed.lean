import ShellArgs.Decimal.Field
import ShellArgs.Json.Basic

namespace ShellArgs

-- Places are paths of names and positions.
structure Checked (α : Type) where
  value? : Option α
  failures : List (List String)

namespace Checked

variable {α β : Type}

def ok (a : α) : Checked α :=
  ⟨some a, []⟩

def refuse : Checked α :=
  ⟨none, [[]]⟩

def ofOption : Option α → Checked α
  | some a => ok a
  | none   => refuse

def map (f : α → β) (x : Checked α) : Checked β :=
  ⟨x.value?.map f, x.failures⟩

def both (x : Checked (α → β)) (y : Checked α) : Checked β :=
  ⟨x.value?.bind fun f => y.value?.map f, x.failures ++ y.failures⟩

instance : Applicative Checked where
  pure := ok
  seq x y := both x (y ())
  map := map

def within (name : String) (x : Checked α) : Checked α :=
  ⟨x.value?, x.failures.map (name :: ·)⟩

def sequence : List (Checked α) → Checked (List α)
  | []      => ok []
  | x :: xs => List.cons <$> x <*> sequence xs

def toExcept (x : Checked α) : Except (List String) α :=
  match x.value?, x.failures with
  | some a, [] => .ok a
  | _,      fs => .error (fs.map (".".intercalate ·))

end Checked

namespace Json

def text? : Json → Option String
  | .str s => some s
  | _      => none

def rawText? : Json → Option RawText
  | .str s      => some (.unicode s)
  | .unpaired t => some (.unpaired t)
  | _           => none

def lowered (s : String) : String :=
  String.ofList (s.toList.map Char.toLower)

def falseWords : List String := ["0", "off", "f", "false", "n", "no"]

def trueWords : List String := ["1", "on", "t", "true", "y", "yes"]

def ofZeroOne? : Int → Option Bool
  | 0 => some false
  | 1 => some true
  | _ => none

def bool? : Json → Option Bool
  | .bool b  => some b
  | .int n   => ofZeroOne? n
  | .float x => x.toInt?.bind ofZeroOne?
  | .str s   =>
    if falseWords.contains (lowered s) then some false
    else if trueWords.contains (lowered s) then some true
    else none
  | _        => none

-- A whole number is taken at its nearest floating-point number, if there is one.
def float? : Json → Option Binary64
  | .float x => some x
  | .bool b  => some (.ofInt (if b then 1 else 0))
  | .int n   => some (Binary64.ofInt n) |>.filter (·.isFinite)
  | .str s   => Decimal.fieldFloat? s.toList
  | _        => none

-- Whole floating-point numbers are integers below this magnitude.
def mostWhole : Nat := 0x8000000000000000

def int? : Json → Option Int
  | .int n   => some n
  | .bool b  => some (if b then 1 else 0)
  | .float x => x.toInt?.filter fun n => n.natAbs < mostWhole
  | .str s   => Decimal.fieldInt? s.toList
  | _        => none

def items? : Json → Option (List Json)
  | .arr vs => some vs
  | _       => none

def fields? : Json → Option (Ordered Json)
  | .obj fs => some fs
  | _       => none

def listOf {α : Type} (f : Json → Checked α) (v : Json) : Checked (List α) :=
  match v.items? with
  | some vs => .sequence (vs.mapIdx fun i v => (f v).within (toString i))
  | none    => .refuse

def orNull {α : Type} (f : Json → Checked α) : Json → Checked (Option α)
  | .null => .ok none
  | v     => some <$> f v

def required {α : Type} (fs : Ordered Json) (name : String) (f : Json → Checked α) : Checked α :=
  (match fs.get? name with
  | some v => f v
  | none   => .refuse).within name

def optional {α : Type} (fs : Ordered Json) (name : String) (left : α) (f : Json → Checked α) :
    Checked α :=
  (match fs.get? name with
  | some v => f v
  | none   => .ok left).within name

def checkText (v : Json) : Checked String := .ofOption v.text?

def checkRawText (v : Json) : Checked RawText := .ofOption v.rawText?

def checkBool (v : Json) : Checked Bool := .ofOption v.bool?

def checkInt (v : Json) : Checked Int := .ofOption v.int?

end Json

end ShellArgs
