import ShellArgs.Routine.Arm
import ShellArgs.Text.Line

namespace ShellArgs

-- The right column may have several lines.
structure UsageRow where
  left : String
  right : String
deriving DecidableEq, Repr

namespace Param

-- A long form alone stands below the other long forms.
def formsColumn (p : Param) : String :=
  match nonempty? p.short, nonempty? p.long with
  | some s, some l => s ++ ", " ++ l
  | some s, none   => s
  | none,   _      => "    " ++ p.long.getD "None"

def usageRow (p : Param) : UsageRow :=
  let left := match p.kind with
    | .positional => p.synopsis
    | .flag       => p.formsColumn ++ dots
    | .option     => p.formsColumn ++ " " ++ p.placeholder ++ dots
  let notes := [
    p.default.map fun v => "[default: " ++ v ++ "]",
    if p.choices.isEmpty then none
      else some ("[possible values: " ++ ", ".intercalate p.choices ++ "]"),
    (nonempty? p.envVar).map fun v => "[env: " ++ v ++ "]"]
  ⟨left, " ".intercalate ((some p.help :: notes).filterMap nonempty?)⟩
where
  dots : String := if p.multiple then "..." else ""

end Param

namespace Routine

open Shell

def formsColumn : List String → Except TreeError String
  | []     => .error .noForm
  | [f, g] => .ok (f ++ ", " ++ g)
  | f :: _ => .ok (if "--".toList.isPrefixOf f.toList then "    " ++ f else f)

def padded (width : Nat) (s : String) : String :=
  s ++ String.ofList (List.replicate (width - s.length) ' ')

def trimmedRight (s : String) : String :=
  String.ofList (Text.trimRight s.toList)

-- Without rows there is no widest one.
def formatRows (rows : List UsageRow) : Except TreeError String :=
  match (rows.map (·.left.length)).max? with
  | none       => .error .noRow
  | some width =>
    .ok ("\n".intercalate (rows.flatMap fun r =>
      match r.right.toList.splitOn '\n' with
      | []      => []
      | s :: ss => row width r.left s :: ss.map (row width "")))
where
  row (width : Nat) (left : String) (right : List Char) : String :=
    trimmedRight ("  " ++ padded width left ++ "  " ++ String.ofList right)

def callPath (t : Tree) (c : Command) (o : Options) : Except TreeError String := do
  return " ".intercalate (o.prog :: (← t.path c))

def header (c : Command) (o : Options) : List String :=
  let version := if c.isRoot then nonempty? c.version else none
  let author := if c.isRoot then nonempty? c.author else none
  [version.map fun v => o.prog ++ " " ++ v, author, nonempty? (some c.help)].filterMap id

def synopsis (c : Command) (children : List Command) (o : Options) (callPath : String) : String :=
  let anyOption :=
    c.options.any (!·.required) || !(helpForms c o).isEmpty || !(versionForms c o).isEmpty
  let subcommand :=
    if children.isEmpty then [] else if c.func.isNone then ["<COMMAND>"] else ["[COMMAND]"]
  "USAGE: " ++ " ".intercalate (callPath :: (if anyOption then ["[OPTIONS]"] else []) ++
    (c.options.filter (·.required)).map Param.synopsis ++ c.positionals.map Param.synopsis ++
    subcommand)

def table (title : String) (rows : List UsageRow) : Except TreeError (List String) := do
  if rows.isEmpty then return [] else return [title ++ ":\n" ++ (← formatRows rows)]

def formsRow (fs : List String) (meaning : String) : Except TreeError (List UsageRow) := do
  if fs.isEmpty then return [] else return [⟨← formsColumn fs, meaning⟩]

def optionRows (c : Command) (o : Options) : Except TreeError (List UsageRow) := do
  return c.options.map Param.usageRow ++ (← formsRow (helpForms c o) "Print help") ++
    (← formsRow (versionForms c o) "Print version")

def childRow (c : Command) : UsageRow :=
  ⟨", ".intercalate c.callNames, c.summary⟩

def usageText (t : Tree) (c : Command) (o : Options) : Except TreeError String := do
  let children ← t.childrenOf c
  let head := header c o
  let sections :=
    (if head.isEmpty then [] else ["\n".intercalate head]) ++
    [synopsis c children o (← callPath t c o)] ++
    (← table "ARGS" (c.positionals.map Param.usageRow)) ++
    (← table "OPTIONS" (← optionRows c o)) ++
    (← table "COMMANDS" (children.map childRow))
  return "\n\n".intercalate sections

def delimiter : Nat → String
  | 0     => "__ARGSH_USAGE__"
  | n + 1 => "__ARGSH_USAGE_" ++ toString (n + 1) ++ "__"

-- There are more candidates than lines.
def freeDelimiter (text : String) : String :=
  let lines := (Text.lines text.toList).map String.ofList
  (((List.range (lines.length + 1)).map delimiter).find? (!lines.contains ·)).getD (delimiter 0)

def usageRoutine (t : Tree) (c : Command) (o : Options) : Except TreeError FunctionDef := do
  let text ← usageText t c o
  let delimiter := freeDelimiter text
  return { name := usageName c.index, body := ["    cat <<'" ++ delimiter ++ "'", text, delimiter] }

end Routine

end ShellArgs
