import ShellArgs.Descriptor.Grammar
import ShellArgs.Diagnostic
import ShellArgs.Directive.Basic

-- Reading the text of a parameter directive. Its first line is a descriptor, the other
-- lines continue the help text.

namespace ShellArgs

def ParamKind.ofDirective? : DirectiveKind → Option ParamKind
  | .option     => some .option
  | .flag       => some .flag
  | .positional => some .positional
  | _           => none

def ParamKind.directive : ParamKind → DirectiveKind
  | option     => .option
  | flag       => .flag
  | positional => .positional

namespace Descriptor

structure Failure where
  kind : ParamKind
  descriptor : List Char
  reach : Reach
deriving DecidableEq, Repr

namespace Failure

def column (f : Failure) : Nat :=
  f.descriptor.length - f.reach.rest.length + 1

def message (f : Failure) : String :=
  let near := f.reach.rest.take 16
  "invalid @" ++ f.kind.directive.name ++ " descriptor '" ++ String.ofList f.descriptor ++
    "': expected " ++ f.reach.expected.describe ++ " at column " ++ toString f.column ++
    (if near.isEmpty then "" else " near '" ++ String.ofList near ++ "'")

def diagnostic (f : Failure) (line : Int) : Diagnostic where
  line := line
  message := f.message
  severity := .error
  stage := .grammar
  column := some f.column

end Failure

def joinHelp (help more : String) : String :=
  let parts := [help, more].filter (· != "")
  String.ofList (Text.trim ("\n".intercalate parts).toList)

def read (kind : ParamKind) (text : String) (line : Int) : Except Failure Param :=
  let descriptor := text.toList.takeWhile (· != '\n')
  let more := (text.toList.dropWhile (· != '\n')).drop 1
  match Rule.descriptor kind descriptor ⟨descriptor, .descriptor⟩ with
  | (some (p, _), _) => .ok { p with help := joinHelp p.help (String.ofList more), line }
  | (none, reach)    => .error ⟨kind, descriptor, reach⟩

end Descriptor

end ShellArgs
