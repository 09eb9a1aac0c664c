import ShellArgs.Descriptor.Rule
import ShellArgs.Param.Basic
import ShellArgs.Text.Blank

-- The grammar of descriptors, in which a parameter is declared on one line:
--
--   -e --env![dev|prod] <NAME> $DEPLOY_ENV  Target environment
--   files+ <FILE>                           Files to process

namespace ShellArgs.Descriptor

def isNameChar (c : Char) : Bool :=
  c.isAlphanum || c == '_' || c == '-' || c == '.'

def isShortChar (c : Char) : Bool :=
  c.toNat < 0x80 && !Text.isBlank c && c != '-' && !Shell.specialChars.contains c

def isLoneShortChar (c : Char) : Bool :=
  c.isAlphanum || c == '_'

def isSpace (c : Char) : Bool :=
  c == ' ' || c == '\t'

def closeQuote? (quote : Char) : List Char → Option (List Char × List Char)
  | []             => none
  | '\\' :: c :: s =>
    if c = quote ∨ c = '\\' then (closeQuote? quote s).map fun (t, r) => (c :: t, r)
    else (closeQuote? quote (c :: s)).map fun (t, r) => ('\\' :: t, r)
  | c :: s         =>
    if c = quote then some ([], s) else (closeQuote? quote s).map fun (t, r) => (c :: t, r)

def closeAngle? (depth : Nat) : List Char → Option (List Char × List Char)
  | []     => none
  | c :: s =>
    if c = '<' then (closeAngle? (depth + 1) s).map fun (t, r) => (c :: t, r)
    else if c = '>' then
      match depth with
      | 0     => some ([], s)
      | n + 1 => (closeAngle? n s).map fun (t, r) => (c :: t, r)
    else (closeAngle? depth s).map fun (t, r) => (c :: t, r)

namespace Rule

def spaces : Rule Nat := do
  return (← takeWhile isSpace).length

def name : Rule String := do
  match ← takeWhile isNameChar with
  | [] => fail .name
  | cs => return String.ofList cs

def quoted (quote : Char) : Rule String := do
  drop 1
  let cs ← ofText (closeQuote? quote) (.closingQuote quote)
  return String.ofList cs

def functionName : Rule String := do
  expect '\x60'
  match ← takeWhile Shell.isFunctionChar with
  | [] => fail .functionName
  | cs =>
    expect '\x60'
    return String.ofList cs

def defaultValue (p : Param) : Rule Param := do
  expect '='
  match ← peek with
  | some '\x60' => return { p with defaultFn := some (← functionName) }
  | some '\''   => return { p with default := some (← quoted '\'') }
  | some '"'    => return { p with default := some (← quoted '"') }
  | _           =>
    let cs ← takeWhile fun c => !Text.isBlank c && c != '['
    return { p with default := some (String.ofList cs) }

def choice : Rule String := do
  match ← peek with
  | some '='    => fail .choice
  | some '\x60' => fail .choice
  | some '\''   => quoted '\''
  | some '"'    => quoted '"'
  | _           => return String.ofList (← takeWhile fun c => c != '|' && c != ']')

-- There are fewer choices than characters are left.
def moreChoices : Nat → Rule (List String)
  | 0     => pure []
  | n + 1 => do
    if ← eat '|' then
      let c ← choice
      return c :: (← moreChoices n)
    else return []

def startsFunction : List Char → Bool
  | '\x60' :: _        => true
  | '?' :: '\x60' :: _ => true
  | _                  => false

-- The flag says that the first choice is declared to be the default.
def choices (p : Param) : Rule (Param × Bool) := do
  expect '['
  if startsFunction (← rest) then
    let unchecked ← eat '?'
    let fn ← functionName
    expect ']'
    return ({ p with choicesFn := some fn, validateChoices := !unchecked }, false)
  else
    let hasDefault ← eat '='
    let first ← choice
    let more ← moreChoices (← rest).length
    expect ']'
    let p := { p with choices := first :: more }
    if hasDefault then return ({ p with default := some first, required := false }, true)
    else return (p, false)

def marker (p : Param) : Rule Param := do
  match ← peek with
  | some '!' => drop 1; return { p with required := true }
  | some '*' => drop 1; return { p with multiple := true }
  | some '+' => drop 1; return { p with required := true, multiple := true }
  | _        => return p

-- Only one of a default and a group of choices can set the default.
def values (p : Param) : Rule Param := do
  match ← peek with
  | some '=' =>
    let p ← defaultValue p
    if (← peek) == some '[' then
      let (p, hasDefault) ← choices p
      if hasDefault then fail .singleDefault else return p
    else return p
  | some '[' =>
    let (p, hasDefault) ← choices p
    if !hasDefault && (← peek) == some '=' then defaultValue p else return p
  | _ => return p

def valueNames : Nat → Rule (List String)
  | 0     => pure []
  | n + 1 => do
    let s ← rest
    if (s.dropWhile isSpace).head? == some '<' then
      let _ ← spaces
      drop 1
      let cs ← ofText (closeAngle? 0) .closingAngle
      return String.ofList cs :: (← valueNames n)
    else return []

def environment (p : Param) : Rule Param := do
  let s ← rest
  if s.head?.any isSpace && (s.dropWhile isSpace).head? == some '$' then
    let _ ← spaces
    drop 1
    if (← peek).any Shell.isNameStart then
      let cs ← takeWhile Shell.isNameChar
      if (← peek).all Text.isBlank then return { p with envVar := some (String.ofList cs) }
      else fail .blankAfterEnv
    else fail .envName
  else return p

def tail : Rule String := do
  let s ← rest
  match s with
  | []     => return ""
  | c :: _ =>
    if Text.isBlank c then
      drop s.length
      return String.ofList (Text.trim s)
    else fail .blankOrEnd

def afterForms (p : Param) : Rule Param := do
  let p ←
    if p.isFlag then do pure { p with multiple := ← eat '*' }
    else do
      let p ← values (← marker p)
      pure { p with valueNames := ← valueNames (← rest).length }
  let p ← environment p
  return { p with help := ← tail }

def shortBeforeLong : Rule String := do
  expect '-'
  match ← peek with
  | some c =>
    if isShortChar c then
      drop 1
      if (← peek).any isSpace then return String.ofList ['-', c]
      else fail .blankAfterShort
    else fail .shortChar
  | none => fail .shortChar

-- A single dash with a single character is a short form.
def withLong (kind : ParamKind) : Rule Param := do
  let short ← attempt shortBeforeLong
  let _ ← spaces
  unless ← eat '-' do
    fail .dashes
  let double ← eat '-'
  let name ← name
  let form := (if double then "--" else "-") ++ name
  if !double && name.toList.length == 1 && short.isNone then
    afterForms { name, kind, short := some form }
  else
    afterForms { name, kind, short, long := some form }

def shortAlone (kind : ParamKind) : Rule Param := do
  let _ ← spaces
  expect '-'
  let s ← rest
  match s.head? with
  | some c =>
    if kind == .flag then
      if isShortChar c then declare c else fail .shortChar
    else if isLoneShortChar c && !(s.drop 1).head?.any isNameChar then declare c
    else fail .singleShort
  | none => fail (if kind == .flag then .shortChar else .singleShort)
where
  declare (c : Char) : Rule Param := do
    drop 1
    afterForms { name := String.singleton c, kind, short := some (String.ofList ['-', c]) }

def positional : Rule Param := do
  let p ← do
    if ← eat '<' then
      let name ← name
      expect '>'
      pure { name, kind := .positional, required := true : Param }
    else if ← eat '[' then
      let name ← name
      expect ']'
      pure { name, kind := .positional : Param }
    else pure { name := ← name, kind := .positional : Param }
  let p ← values (← marker p)
  let p := { p with valueNames := ← valueNames 1 }
  let p ← environment p
  return { p with help := ← tail }

def descriptor : ParamKind → Rule Param
  | .option     => (withLong .option).orElse (shortAlone .option)
  | .flag       => (withLong .flag).orElse (shortAlone .flag)
  | .positional => positional

end Rule

end ShellArgs.Descriptor
