import ShellArgs.Routine.Binding
import ShellArgs.Routine.Usage

namespace ShellArgs.Routine

open Shell

def mostWords? (ps : List Param) : Option Nat :=
  if ps.any (·.multiple) then none else some ps.length

def surplusCheck (ps : List Param) (hasChildren : Bool) : List Line :=
  match mostWords? ps with
  | none   => []
  | some n =>
    let word := expand (wordsVar ++ "[" ++ toString n ++ "]")
    let message :=
      if hasChildren && n == 0 then "unknown command '" ++ word ++ "'"
      else "unexpected argument '" ++ word ++ "'"
    conditional (moreWordsTest n) [line ("_argsh_error " ++ doubleQuoted message)]

def positionalBlock (c : Command) (stem : String) (hasChildren : Bool) : List Line :=
  let ps := c.positionals
  (ps.mapIdx fun i p => positionalBinding p i stem).flatten ++ surplusCheck ps hasChildren ++
    ps.flatMap (settle · stem)

-- A command without a function shows its usage if there are subcommands to choose from.
def runLines (c : Command) (hasChildren : Bool) : List Line :=
  match c.func with
  | none    =>
    if hasChildren then [line (usageName c.index), line "exit 0"] else []
  | some fn =>
    (nonempty? c.before).toList.map line ++
      [line (fn ++ " " ++
        expand (wordsVar ++ "[@]+" ++ expandQuoted (wordsVar ++ "[@]")))] ++
      (nonempty? c.after).toList.map line

def wordLoop (c : Command) (children : List Command) (o : Options) : List Line :=
  [line ("while [ " ++ doubleQuoted "$#" ++ " -gt 0 ]; do")] ++
    indent ([line ("case " ++ doubleQuoted "$1" ++ " in")] ++
      (arms c children o).flatMap (·.lines o.stem) ++ [line "esac"]) ++
    [line "done"]

def parseBody (c : Command) (children : List Command) (o : Options) (callPath : String) :
    List Line :=
  let stem := o.stem
  let hasChildren := !children.isEmpty
  let block := positionalBlock c stem hasChildren
  let hint := if (helpForms c o).isEmpty then "" else callPath
  [line ("local " ++ valueVar ++ "=\"\" " ++ nextVar ++ "=\"\""),
   line ("local " ++ wordsVar ++ "=()")] ++
    (if c.params.isEmpty then []
      else [line ("unset " ++ " ".intercalate (c.params.map (·.varName stem)))]) ++
    [assignLine errorsVar (.array [])] ++
    wordLoop c children o ++
    (c.options.flatMap (settle · stem)) ++
    (if hasChildren && !block.isEmpty then
      conditional ("[ -z " ++ doubleQuoted ("$" ++ nextVar) ++ " ]") block
    else block) ++
    [line ("_argsh_check_errors " ++ quote hint)] ++
    (if hasChildren then
      conditional ("[ -n " ++ doubleQuoted ("$" ++ nextVar) ++ " ]")
        [line (doubleQuoted ("$" ++ nextVar) ++ " " ++ doubleQuoted "$@"), line "return"]
    else []) ++
    runLines c hasChildren

def parseRoutine (t : Tree) (c : Command) (o : Options) : Except TreeError FunctionDef := do
  let children ← t.childrenOf c
  let body := parseBody c children o (← callPath t c o)
  return { name := parseName c.index, body := written (indent body) }

end ShellArgs.Routine
