import ShellArgs.Shell.Word
import ShellArgs.Text.Upper

namespace ShellArgs

inductive ParamKind where
  | option
  | flag
  | positional
deriving DecidableEq, Repr

namespace ParamKind

def name : ParamKind → String
  | option     => "option"
  | flag       => "flag"
  | positional => "positional"

def ofName? : String → Option ParamKind
  | "option"     => some option
  | "flag"       => some flag
  | "positional" => some positional
  | _            => none

theorem ofName?_name (k : ParamKind) : ofName? k.name = some k := by
  cases k <;> rfl

end ParamKind

inductive Arity where
  | exactlyOne
  | optional
  | variadic
  | variadicRequired
deriving DecidableEq, Repr

def Arity.name : Arity → String
  | exactlyOne       => "exactly_one"
  | optional         => "optional"
  | variadic         => "variadic"
  | variadicRequired => "variadic_required"

inductive ValueHint where
  | string
  | number
  | path
deriving DecidableEq, Repr

namespace ValueHint

def name : ValueHint → String
  | string => "string"
  | number => "number"
  | path   => "path"

def pathNames : List String := ["FILE", "PATH", "DIR", "DIRECTORY"]

def numberNames : List String := ["NUM", "NUMBER", "INT", "INTEGER", "FLOAT", "N"]

def ofValueName (valueName : String) : ValueHint :=
  let upper := String.ofList (Text.upper valueName.toList)
  if pathNames.contains upper then path
  else if numberNames.contains upper then number
  else string

end ValueHint

-- `short` and `long` keep their dashes. `name` is the long form without dashes, the short
-- character, or the name of the positional. A default is a text or a function that prints
-- it, and the same holds for choices.
structure Param where
  name : String
  kind : ParamKind
  short : Option String := none
  long : Option String := none
  required : Bool := false
  multiple : Bool := false
  default : Option String := none
  defaultFn : Option String := none
  choices : List String := []
  choicesFn : Option String := none
  validateChoices : Bool := true
  valueNames : List String := []
  envVar : Option String := none
  help : String := ""
  line : Int := 0
deriving DecidableEq, Repr

def nonempty? (s : Option String) : Option String :=
  s.filter (· != "")

namespace Param

def isPositional (p : Param) : Bool :=
  p.kind == .positional

def isFlag (p : Param) : Bool :=
  p.kind == .flag

def arity (p : Param) : Arity :=
  match p.multiple, p.required with
  | true,  true  => .variadicRequired
  | true,  false => .variadic
  | false, true  => .exactlyOne
  | false, false => .optional

def valueHint (p : Param) : ValueHint :=
  match p.valueNames with
  | []     => .string
  | n :: _ => .ofValueName n

def valuesPerOccurrence (p : Param) : Nat :=
  match p.kind with
  | .option => max 1 p.valueNames.length
  | _       => 0

def forms (p : Param) : List String :=
  [p.long, p.short].filterMap nonempty?

def isArray (p : Param) : Bool :=
  !p.isFlag && (p.multiple || p.valuesPerOccurrence > 1)

def varName (p : Param) (stem : String) : String :=
  stem ++ "_" ++ Shell.nearestName p.name

def hasDefault (p : Param) : Bool :=
  p.default.isSome || p.defaultFn.isSome

def answersTo (p : Param) (name : String) : Bool :=
  name == p.name || p.forms.contains name

-- Options and flags stay ahead of positionals, in the order in which they were added.
def insert (p : Param) (ps : List Param) : List Param :=
  if p.isPositional then ps ++ [p]
  else ps.takeWhile (!·.isPositional) ++ p :: ps.dropWhile (!·.isPositional)

theorem insert_perm (p : Param) (ps : List Param) : (p.insert ps).Perm (p :: ps) := by
  unfold insert
  split
  case isTrue => exact List.perm_append_singleton p ps
  case isFalse =>
    refine List.perm_middle.trans (.cons p ?_)
    rw [List.takeWhile_append_dropWhile]

end Param

end ShellArgs
