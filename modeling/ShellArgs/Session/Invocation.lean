import ShellArgs.Decimal.Field
import ShellArgs.Session.Arguments

namespace ShellArgs

structure CompileFlags where
  prog : Option String := none
  stem : Option String := none
  noHelp : Bool := false
deriving DecidableEq, Repr

inductive Request where
  | compile (script : String) (flags : CompileFlags) (output : Option String)
  | build (script : String) (flags : CompileFlags) (output : String)
  | check (script : String)
  | inspect (script : String)
  | complete (script : String) (cursor : Int) (words : List String)
  | showCompletion (script : String) (prog : Option String)
  | installCompletion (script : String) (prog : Option String)
  | showSettings
  | setSetting (key value : String)
  | resetSettings
deriving DecidableEq, Repr

structure GlobalFlags where
  json : Bool := false
  plain : Bool := false
  quiet : Bool := false
  verbose : Bool := false
  force : Bool := false
deriving DecidableEq, Repr

inductive Invocation where
  | help
  | version
  | run (flags : GlobalFlags) (request : Request)
deriving DecidableEq, Repr

namespace Invocation

def helpForm : OptionForm where
  long := "--help"

def globalForms : List OptionForm := [
  { long := "--version" },
  { long := "--json" },
  { long := "--plain" },
  { long := "--no-color" },
  { long := "--quiet", short := 'q' },
  { long := "--verbose", short := 'v' },
  { long := "--force", short := 'f' },
  helpForm]

def progForm : OptionForm where
  long := "--prog"
  takesValue := true

def compileForms : List OptionForm := [
  progForm,
  { long := "--prefix", takesValue := true },
  { long := "--no-help" },
  { long := "--output", short := 'o', takesValue := true },
  helpForm]

def compileFlags (a : Arguments) : CompileFlags where
  prog := a.value? "--prog"
  stem := a.value? "--prefix"
  noHelp := a.has "--no-help"

-- Nothing is the request for help.
abbrev Command := List String → Except Misuse (Option Request)

def command (forms : List OptionForm) (f : Arguments → Except Misuse Request) : Command :=
  fun args => do
    let a ← Arguments.read forms true args
    if a.has "--help" then return none else some <$> f a

-- Help and version are told whatever else is asked for, and the first of them counts.
def told? (a : Arguments) : Option String :=
  (a.given.map (·.1)).find? fun f => f = "--help" ∨ f = "--version"

inductive Choice (α : Type) where
  | told (form : String)
  | command (options : Arguments) (command : α) (args : List String)

-- The first word names a command. Behind two dashes it may look like an option. If it names
-- no command, then the words are read as arguments once more, and an option that is told
-- counts there too.
def group {α : Type} (forms : List OptionForm) (find? : String → Option α)
    (args : List String) : Except Misuse (Choice α) := do
  let a ← Arguments.read forms false args
  match told? a, a.words with
  | some f, _            => return .told f
  | none,   []           => throw .missingCommand
  | none,   name :: rest =>
    match find? name with
    | some c => return .command a c rest
    | none   =>
      match told? (← Arguments.read forms false a.words) with
      | some f => return .told f
      | none   => throw (.unknownCommand name)

def noWord : List String → Except Misuse Unit
  | []     => .ok ()
  | w :: _ => .error (.extraArgument w)

def oneWord (name : String) : List String → Except Misuse String
  | []          => .error (.missingArgument name)
  | [w]         => .ok w
  | _ :: w :: _ => .error (.extraArgument w)

def twoWords (first second : String) : List String → Except Misuse (String × String)
  | []               => .error (.missingArgument first)
  | [_]              => .error (.missingArgument second)
  | [v, w]           => .ok (v, w)
  | _ :: _ :: w :: _ => .error (.extraArgument w)

def completion? (name : String) : Option Command :=
  match name with
  | "show"    => some <| command [progForm, helpForm] fun a => do
    return .showCompletion (← oneWord "SCRIPT" a.words) (a.value? "--prog")
  | "install" => some <| command [progForm, helpForm] fun a => do
    return .installCompletion (← oneWord "SCRIPT" a.words) (a.value? "--prog")
  | _         => none

def settings? (name : String) : Option Command :=
  match name with
  | "show"  => some <| command [helpForm] fun a => do
    noWord a.words
    return .showSettings
  | "set"   => some <| command [helpForm] fun a => do
    let (key, value) ← twoWords "KEY" "VALUE" a.words
    return .setSetting key value
  | "reset" => some <| command [helpForm] fun a => do
    noWord a.words
    return .resetSettings
  | _       => none

def subgroup (find? : String → Option Command) : Command := fun args => do
  match ← group [helpForm] find? args with
  | .told _           => return none
  | .command _ c args => c args

def command? (name : String) : Option Command :=
  match name with
  | "compile"    => some <| command compileForms fun a => do
    return .compile (← oneWord "SCRIPT" a.words) (compileFlags a) (a.value? "--output")
  | "build"      => some <| command compileForms fun a => do
    let script ← oneWord "SCRIPT" a.words
    match a.value? "--output" with
    | some output => return .build script (compileFlags a) output
    | none        => throw (.missingArgument "--output")
  | "check"      => some <| command [helpForm] fun a => do
    return .check (← oneWord "SCRIPT" a.words)
  | "inspect"    => some <| command [helpForm] fun a => do
    return .inspect (← oneWord "SCRIPT" a.words)
  | "complete"   => some <| command [helpForm] fun a => do
    match a.words with
    | []                       => throw (.missingArgument "SCRIPT")
    | [_]                      => throw (.missingArgument "CWORD")
    | script :: cursor :: words =>
      match Decimal.fieldInt? cursor.toList with
      | some n => return .complete script n words
      | none   => throw (.noInteger cursor)
  | "completion" => some (subgroup completion?)
  | "config"     => some (subgroup settings?)
  | _            => none

def globalFlags (a : Arguments) : GlobalFlags where
  json := a.has "--json"
  plain := a.has "--plain"
  quiet := a.has "--quiet"
  verbose := a.has "--verbose"
  force := a.has "--force"

def read (args : List String) : Except Misuse Invocation := do
  match ← group globalForms command? args with
  | .told f                 => return if f = "--help" then help else version
  | .command options c args =>
    match ← c args with
    | some r => return run (globalFlags options) r
    | none   => return help

end Invocation

end ShellArgs
