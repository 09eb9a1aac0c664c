import ShellArgs.Diagnostic
import ShellArgs.Tree.Basic

-- What a tree has to satisfy before a parser can be generated for it. All violations are
-- found, not just the first one. Trees may be broken in any way here.

namespace ShellArgs

-- `owner` is the label of the command that a parameter belongs to.
inductive Violation where
  | rootHasParent
  | brokenChain (command : String)
  | strayChild (name : String)
  | repeatedForm (form owner : String) (firstLine : Int)
  | repeatedParam (param owner : String)
  | sharedVariable (first second owner suffix : String)
  | sharedEnv (envVar first second owner : String)
  | flagDefault (param owner : String)
  | flagChoices (param owner : String)
  | requiredDefault (param owner : String)
  | defaultNoChoice (value param owner : String) (choices : List String)
  | defaultNoNumber (value param owner : String)
  | secondVariadic (param owner : String)
  | afterVariadic (param variadic owner : String)
  | requiredAfterOptional (param optional owner : String)
  | shadowed (param owner outer outerOwner : String) (outerLine : Int)
  | ownAlias (word : String)
  | siblingAlias (word command : String)
  | sharedAlias (word first second : String)
deriving DecidableEq, Repr

namespace Violation

def severity : Violation → Severity
  | sharedEnv .. | shadowed .. | ownAlias _ => .warning
  | _ => .error

def message : Violation → String
  | rootHasParent => "the root command must not have a parent"
  | brokenChain command =>
    "command '" ++ command ++ "' has a cyclic or dangling parent chain"
  | strayChild name => "child entry '" ++ name ++ "' does not point back at its parent"
  | repeatedForm form owner firstLine =>
    "duplicate option '" ++ form ++ "' in " ++ owner ++ " (first declared on line " ++
      toString firstLine ++ ")"
  | repeatedParam param owner => "duplicate parameter name '" ++ param ++ "' in " ++ owner
  | sharedVariable first second owner suffix =>
    "parameters '" ++ first ++ "' and '" ++ second ++ "' in " ++ owner ++
      " map to the same shell variable suffix '" ++ suffix ++ "'"
  | sharedEnv envVar first second owner =>
    "environment variable $" ++ envVar ++ " is bound to both '" ++ first ++ "' and '" ++ second ++
      "' in " ++ owner
  | flagDefault param owner =>
    "flag '" ++ param ++ "' in " ++ owner ++ " cannot have a default value"
  | flagChoices param owner => "flag '" ++ param ++ "' in " ++ owner ++ " cannot have choices"
  | requiredDefault param owner =>
    "required parameter '" ++ param ++ "' in " ++ owner ++ " cannot have a default value"
  | defaultNoChoice value param owner choices =>
    "default '" ++ value ++ "' of '" ++ param ++ "' in " ++ owner ++ " is not one of: " ++
      ", ".intercalate choices
  | defaultNoNumber value param owner =>
    "default '" ++ value ++ "' of '" ++ param ++ "' in " ++ owner ++ " is not a number"
  | secondVariadic param owner =>
    "'" ++ param ++ "' is a second variadic positional in " ++ owner
  | afterVariadic param variadic owner =>
    "positional '" ++ param ++ "' follows variadic '" ++ variadic ++ "' in " ++ owner
  | requiredAfterOptional param optional owner =>
    "required positional '" ++ param ++ "' follows optional '" ++ optional ++ "' in " ++ owner
  | shadowed param owner outer outerOwner outerLine =>
    "parameter '" ++ param ++ "' in " ++ owner ++ " reuses the shell variable of '" ++ outer ++
      "' in " ++ outerOwner ++ " (line " ++ toString outerLine ++
      "); the outer value is lost when this command runs"
  | ownAlias word => "alias '" ++ word ++ "' repeats the command's own name"
  | siblingAlias word command =>
    "alias '" ++ word ++ "' of '" ++ command ++ "' shadows a sibling command"
  | sharedAlias word first second =>
    "alias '" ++ word ++ "' is used by both '" ++ first ++ "' and '" ++ second ++ "'"

end Violation

structure Finding where
  line : Int
  violation : Violation
deriving DecidableEq, Repr

namespace Finding

def diagnostic (f : Finding) : Diagnostic where
  line := f.line
  message := f.violation.message
  severity := f.violation.severity
  stage := .validation
  column := none

end Finding

-- One line feed may follow.
def isNumberText (s : String) : Bool :=
  match s.toList with
  | '-' :: s => isUnsigned s
  | s        => isUnsigned s
where
  isUnsigned (s : List Char) : Bool :=
    !(s.takeWhile Char.isDigit).isEmpty && isEnd (s.dropWhile Char.isDigit)
  isEnd : List Char → Bool
    | []       => true
    | ['\n']   => true
    | '.' :: s =>
      !(s.takeWhile Char.isDigit).isEmpty &&
        (s.dropWhile Char.isDigit == [] || s.dropWhile Char.isDigit == ['\n'])
    | _ => false

namespace Param

def valueViolations (p : Param) (owner : String) : List Violation :=
  if p.isFlag then
    (if p.hasDefault then [.flagDefault p.name owner] else []) ++
    (if !p.choices.isEmpty || (nonempty? p.choicesFn).isSome then
      [.flagChoices p.name owner] else [])
  else
    (if p.required && p.hasDefault then [.requiredDefault p.name owner] else []) ++
    match p.default with
    | none   => []
    | some v =>
      (if !p.choices.isEmpty && !p.choices.contains v then
        [.defaultNoChoice v p.name owner p.choices] else []) ++
      (if p.valueHint = .number && !isNumberText v then [.defaultNoNumber v p.name owner] else [])

def formViolations (p : Param) (owner : String) (earlier : List Param) : List Violation :=
  go [] p.forms
where
  go (own : List String) : List String → List Violation
    | []      => []
    | f :: fs =>
      match earlier.find? (·.forms.contains f) with
      | some q => .repeatedForm f owner q.line :: go own fs
      | none   =>
        if own.contains f then .repeatedForm f owner p.line :: go own fs else go (f :: own) fs

def nameViolations (p : Param) (owner : String) (earlier : List Param) : List Violation :=
  if earlier.any (·.name == p.name) then [.repeatedParam p.name owner]
  else
    let suffix := Shell.nearestName p.name
    match earlier.find? (Shell.nearestName ·.name == suffix) with
    | some q => [.sharedVariable q.name p.name owner suffix]
    | none   => []

def envViolations (p : Param) (owner : String) (earlier : List Param) : List Violation :=
  match nonempty? p.envVar with
  | none   => []
  | some v =>
    match earlier.find? (·.envVar == some v) with
    | some q => [.sharedEnv v q.name p.name owner]
    | none   => []

def violations (p : Param) (owner : String) (earlier : List Param) : List Finding :=
  (p.formViolations owner earlier ++ p.nameViolations owner earlier ++
    p.envViolations owner earlier ++ p.valueViolations owner).map (⟨p.line, ·⟩)

end Param

namespace Tree

def label (t : Tree) (c : Command) : Except TreeError String := do
  match ← t.path c with
  | []    => return "the script"
  | names => return "command '" ++ " ".intercalate names ++ "'"

def isBrokenChain (t : Tree) (c : Command) : Bool :=
  go (t.nodes.length + 1) [] c
where
  -- Without a way out, an index comes up again before there are no more nodes.
  go : Nat → List Int → Command → Bool
    | 0,     _,    _ => true
    | n + 1, seen, c =>
      match c.parent with
      | none   => false
      | some p =>
        if seen.contains c.index || p < 0 then true
        else
          match t.nodes[p.toNat]? with
          | some parent => go n (c.index :: seen) parent
          | none        => true

def pointsBack (t : Tree) (c : Command) (name : String) (i : Int) : Bool :=
  if i < 0 then false
  else
    match t.nodes[i.toNat]? with
    | some child => child.parent == some c.index && child.name == name
    | none       => false

def structureFindings (t : Tree) : Except TreeError (List Finding) := do
  let root ← t.root
  let atRoot := if root.parent.isSome then [⟨root.line, .rootHasParent⟩] else []
  return atRoot ++ t.nodes.flatMap fun c =>
    (if t.isBrokenChain c then [⟨c.line, .brokenChain c.name⟩] else []) ++
    c.children.flatMap fun (n, i) =>
      if t.pointsBack c n i then [] else [⟨c.line, .strayChild n⟩]

def paramFindings (owner : String) (earlier : List Param) : List Param → List Finding
  | []      => []
  | p :: ps => p.violations owner earlier ++ paramFindings owner (earlier ++ [p]) ps

-- At most one positional is variadic, and it is the last one. Required positionals come
-- before optional ones.
def orderFindings (owner : String) (variadic optional : Option Param) : List Param → List Finding
  | []      => []
  | p :: ps =>
    (match variadic with
    | some v =>
      if p.multiple then [⟨p.line, .secondVariadic p.name owner⟩]
      else [⟨p.line, .afterVariadic p.name v.name owner⟩]
    | none => []) ++
    (match optional with
    | some o => if p.required then [⟨p.line, .requiredAfterOptional p.name o.name owner⟩] else []
    | none   => []) ++
    orderFindings owner
      (variadic <|> if p.multiple then some p else none)
      (optional <|> if p.required then none else some p) ps

def enclosing (t : Tree) (c : Command) : List Command :=
  go (t.nodes.length + 1) [c.index] c.parent
where
  -- Each step goes to another place.
  go : Nat → List Int → Option Int → List Command
    | 0,     _,    _      => []
    | _,     _,    none   => []
    | n + 1, seen, some p =>
      if seen.contains p || p < 0 then []
      else
        match t.nodes[p.toNat]? with
        | some parent => parent :: go n (p :: seen) parent.parent
        | none        => []

def shadowFindings (t : Tree) (c : Command) : Except TreeError (List Finding) := do
  let outer := (t.enclosing c).flatMap fun a => a.params.map fun q => (q, a)
  let findings ← c.params.mapM fun p => do
    match outer.find? fun (q, _) => Shell.nearestName q.name == Shell.nearestName p.name with
    | none        => return []
    | some (q, a) =>
      return [⟨p.line, .shadowed p.name (← t.label c) q.name (← t.label a) q.line⟩]
  return findings.flatten

-- `claimed` holds the owners of the aliases before.
def aliasFindings (names : List String) (claimed : Ordered Command) :
    List (Command × String) → List Finding
  | []           => []
  | (c, w) :: ws =>
    if w = c.name then ⟨c.line, .ownAlias w⟩ :: aliasFindings names claimed ws
    else if names.contains w then ⟨c.line, .siblingAlias w c.name⟩ :: aliasFindings names claimed ws
    else
      match claimed.get? w with
      | some o =>
        if o.index ≠ c.index then
          ⟨c.line, .sharedAlias w o.name c.name⟩ :: aliasFindings names claimed ws
        else aliasFindings names (claimed.put w c) ws
      | none => aliasFindings names (claimed.put w c) ws

def childFindings (t : Tree) (c : Command) : Except TreeError (List Finding) := do
  let cs ← t.childrenOf c
  return aliasFindings (cs.map (·.name)) [] (cs.flatMap fun c => c.aliases.map (c, ·))

def commandFindings (t : Tree) (c : Command) : Except TreeError (List Finding) := do
  let owner ← t.label c
  return paramFindings owner [] c.params ++ orderFindings owner none none c.positionals ++
    (← t.shadowFindings c) ++ (← t.childFindings c)

def findings (t : Tree) : Except TreeError (List Finding) := do
  let ofStructure ← t.structureFindings
  let ofCommands ← (← t.walk).mapM t.commandFindings
  return ofStructure ++ ofCommands.flatten

def validate (t : Tree) : Except TreeError (List Diagnostic) := do
  return Diagnostic.sorted ((← t.findings).map Finding.diagnostic)

end Tree

end ShellArgs
