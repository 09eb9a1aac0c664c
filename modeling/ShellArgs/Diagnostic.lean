namespace ShellArgs

-- Only errors keep a script from being compiled.
inductive Severity where
  | error
  | warning
deriving DecidableEq, Repr

inductive Stage where
  | lex
  | grammar
  | tree
  | validation
  | completion
deriving DecidableEq, Repr

-- `column` counts from one, within the text that the finding is about.
structure Diagnostic where
  line : Int
  message : String
  severity : Severity
  stage : Stage
  column : Option Int
deriving DecidableEq, Repr

namespace Severity

def name : Severity → String
  | error   => "error"
  | warning => "warning"

def ofName? : String → Option Severity
  | "error"   => some error
  | "warning" => some warning
  | _         => none

theorem ofName?_name (s : Severity) : ofName? s.name = some s := by
  cases s <;> rfl

end Severity

namespace Stage

def name : Stage → String
  | lex        => "lex"
  | grammar    => "grammar"
  | tree       => "tree"
  | validation => "validation"
  | completion => "completion"

def ofName? : String → Option Stage
  | "lex"        => some lex
  | "grammar"    => some grammar
  | "tree"       => some tree
  | "validation" => some validation
  | "completion" => some completion
  | _            => none

theorem ofName?_name (s : Stage) : ofName? s.name = some s := by
  cases s <;> rfl

end Stage

namespace Diagnostic

def isError (d : Diagnostic) : Bool :=
  d.severity == .error

-- The form `source:line[:column]: severity: message`, which editors know.
def render (d : Diagnostic) (source : String) : String :=
  let column := match d.column with
    | some c => ":" ++ toString c
    | none   => ""
  source ++ ":" ++ toString d.line ++ column ++ ": " ++ d.severity.name ++ ": " ++ d.message

def sorted (ds : List Diagnostic) : List Diagnostic :=
  ds.mergeSort fun d₁ d₂ => d₁.line ≤ d₂.line

theorem sorted_perm (ds : List Diagnostic) : (sorted ds).Perm ds :=
  List.mergeSort_perm ..

def errors (ds : List Diagnostic) : List Diagnostic :=
  ds.filter isError

def warnings (ds : List Diagnostic) : List Diagnostic :=
  ds.filter (!·.isError)

def anyError (ds : List Diagnostic) : Bool :=
  ds.any isError

theorem anyError_eq_false_iff {ds : List Diagnostic} : anyError ds = false ↔ errors ds = [] := by
  simp [anyError, errors]

end Diagnostic

end ShellArgs
