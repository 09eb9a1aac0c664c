import ShellArgs.Options
import ShellArgs.Param.Label
import ShellArgs.Shell.Code
import ShellArgs.Tree.Basic

-- The arms of the `case` that takes the words of a command line apart. The first arm with
-- a pattern that covers the first word acts on it.

namespace ShellArgs.Routine

open Shell

-- The variables that all routines use: the value at hand, the routine of the child that is
-- called, the words that were collected for positionals, and the errors that were found.
def valueVar : String := "_argsh_value"

def nextVar : String := "_argsh_next"

def wordsVar : String := "_argsh_positionals"

def errorsVar : String := "_argsh_errors"

def ownVariables : List String := [valueVar, nextVar, wordsVar, errorsVar]

def parseName (index : Int) : String :=
  "_argsh_parse_" ++ toString index

def usageName (index : Int) : String :=
  "_argsh_usage_" ++ toString index

theorem parseName_eq (index : Int) : parseName index = "_argsh_parse_" ++ toString index :=
  rfl

theorem usageName_eq (index : Int) : usageName index = "_argsh_usage_" ++ toString index :=
  rfl

-- A short form that can be part of a cluster like `-abc`.
structure ClusterForm where
  form : String
  takesValue : Bool
deriving DecidableEq, Repr

inductive Action where
  | raiseFlag (p : Param)
  | refuseValue (p : Param)             -- a value is attached to a flag
  | takeValues (p : Param)              -- all values are in the words that follow
  | takeAttached (p : Param)            -- the first value is attached to the option
  | showUsage (command : Int)
  | showVersion (banner : String)
  | endOptions
  | refuseLong
  | splitCluster (forms : List ClusterForm)
  | refuseShort
  | takeWord (children : List Command)  -- calls a child, or is collected as a positional
deriving DecidableEq, Repr

structure Arm where
  patterns : List Pattern
  action : Action
deriving DecidableEq, Repr

def repetitionGuard (p : Param) (stem : String) : List Line :=
  if p.multiple then []
  else
    let kind := if p.isFlag then "flag" else "option"
    [line ("[ -z " ++ expandQuoted (p.varName stem ++ "+x") ++ " ] || _argsh_die " ++
      quote (kind ++ " '" ++ p.primaryForm ++ "' cannot be used multiple times"))]

def raiseFlag (p : Param) (stem : String) : List Line :=
  let var := p.varName stem
  let value := if p.multiple then "$(( " ++ expand (var ++ ":-0") ++ " + 1 ))" else "1"
  repetitionGuard p stem ++ [assignLine var (.scalar value), shiftLine none]

def assignValues (p : Param) (var : String) (values : List String) : Line :=
  if p.multiple then appendLine var (.array values) else assignLine var (.array values)

def takeValues (p : Param) (stem : String) : List Line :=
  let var := p.varName stem
  let n := p.valuesPerOccurrence
  [(Statement.needValues p.primaryForm n (expandQuoted "@:2")).line] ++ repetitionGuard p stem ++
    [if p.isArray then assignValues p var [expandQuoted ("@:2:" ++ toString n)]
      else assignLine var (.scalar (doubleQuoted "$2")),
     shiftLine (some (n + 1))]

def takeAttached (p : Param) (stem : String) : List Line :=
  let var := p.varName stem
  let attached := expandQuoted "1#*="
  let rest := p.valuesPerOccurrence - 1
  repetitionGuard p stem ++
    if rest = 0 then
      [if p.isArray then appendLine var (.array [attached]) else assignLine var (.scalar attached),
       shiftLine none]
    else
      [assignLine valueVar (.scalar attached),
       shiftLine none,
       (Statement.needValues p.primaryForm rest (doubleQuoted "$@")).line,
       assignValues p var [doubleQuoted ("$" ++ valueVar), expandQuoted ("@:1:" ++ toString rest)],
       shiftLine (some rest)]

-- A flag leaves the rest as another cluster, an option takes the rest as its value.
def ClusterForm.lines (f : ClusterForm) : List Line :=
  let words :=
    if f.takesValue then quote (f.form ++ "=") ++ expandQuoted "1:2"
    else quote f.form ++ " " ++ doubleQuoted ("-" ++ expand "1:2")
  armLine [.exactly f.form] ::
    indent [line ("set -- " ++ words ++ " " ++ expandQuoted "@:2"), armEnd]

def refuse (what : String) : Line :=
  line ("_argsh_die " ++ doubleQuoted ("unknown option '" ++ what ++ "'"))

def splitCluster (forms : List ClusterForm) : List Line :=
  [line ("case " ++ expandQuoted "1:0:2" ++ " in")] ++ forms.flatMap ClusterForm.lines ++
    [armLine [⟨[.rest]⟩]] ++ indent [refuse (expand "1:0:2"), armEnd] ++ [line "esac"]

def childArm (c : Command) : List Line :=
  armLine (c.callNames.map .exactly) :: indent
    [assignLine nextVar (.scalar (parseName c.index)), shiftLine none, line "break", armEnd]

def wordCount : String :=
  expandQuoted ("#" ++ wordsVar ++ "[@]")

def collect (words : String) : Line :=
  appendLine wordsVar (.array [words])

def callChild (children : List Command) : List Line :=
  if children.isEmpty then []
  else
    [line ("if [ " ++ wordCount ++ " -eq 0 ]; then")] ++
      indent ([line ("case " ++ doubleQuoted "$1" ++ " in")] ++ children.flatMap childArm ++
        [line "esac"]) ++
      [line "fi"]

namespace Action

def lines (stem : String) : Action → List Line
  | raiseFlag p        => Routine.raiseFlag p stem
  | refuseValue p      =>
    [line ("_argsh_die " ++ quote ("flag '" ++ p.primaryForm ++ "' does not take a value"))]
  | takeValues p       => Routine.takeValues p stem
  | takeAttached p     => Routine.takeAttached p stem
  | showUsage command  => [line (usageName command), line "exit 0"]
  | showVersion banner => [line ("printf '%s\\n' " ++ quote banner), line "exit 0"]
  | endOptions         =>
    [shiftLine none, collect (doubleQuoted "$@"), line "break"]
  | refuseLong         => [refuse (expand "1%%=*")]
  | splitCluster forms => Routine.splitCluster forms
  | refuseShort        => [refuse "$1"]
  | takeWord children  =>
    callChild children ++ [collect (doubleQuoted "$1"), shiftLine none]

end Action

def Arm.lines (a : Arm) (stem : String) : List Line :=
  armLine a.patterns :: indent (a.action.lines stem ++ [armEnd])

def paramArms (p : Param) : List Arm :=
  let plain := p.forms.map Pattern.exactly
  let attached := p.forms.map fun f => Pattern.startingWith (f ++ "=")
  if p.isFlag then [⟨plain, .raiseFlag p⟩, ⟨attached, .refuseValue p⟩]
  else [⟨plain, .takeValues p⟩, ⟨attached, .takeAttached p⟩]

def helpForms (c : Command) (o : Options) : List String :=
  if o.addHelp then ["-h", "--help"].filter (c.findOption? · |>.isNone) else []

-- Only the root command tells a version.
def toldVersion? (c : Command) (o : Options) : Option String :=
  if c.isRoot && o.addVersion then nonempty? c.version else none

def versionForms (c : Command) (o : Options) : List String :=
  if (toldVersion? c o).isSome then ["-V", "--version"].filter (c.findOption? · |>.isNone) else []

def clusterForms (c : Command) (o : Options) : List ClusterForm :=
  c.options.filterMap (fun p => (nonempty? p.short).map (⟨·, !p.isFlag⟩)) ++
    ["-h", "-V"].filterMap fun f =>
      if (helpForms c o).contains f || (versionForms c o).contains f then some ⟨f, false⟩ else none

def arms (c : Command) (children : List Command) (o : Options) : List Arm :=
  let help := helpForms c o
  let versions := versionForms c o
  let cluster := clusterForms c o
  c.options.flatMap paramArms ++
    (if help.isEmpty then [] else [⟨help.map .exactly, .showUsage c.index⟩]) ++
    (if versions.isEmpty then []
      else [⟨versions.map .exactly, .showVersion (o.prog ++ " " ++ c.version.getD "")⟩]) ++
    [⟨[.exactly "--"], .endOptions⟩, ⟨[.startingWith "--"], .refuseLong⟩] ++
    (if cluster.isEmpty then []
      else [⟨[⟨[.text "-", .charExcept '-', .char, .rest]⟩], .splitCluster cluster⟩]) ++
    [⟨[⟨[.text "-", .char, .rest]⟩], .refuseShort⟩, ⟨[⟨[.rest]⟩], .takeWord children⟩]

end ShellArgs.Routine
