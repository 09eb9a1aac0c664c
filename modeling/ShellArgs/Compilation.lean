import ShellArgs.Directive.Lexer
import ShellArgs.Script
import ShellArgs.Tree.Builder

namespace ShellArgs

-- `directives` is the number of directives in the text.
structure Report where
  tree : Tree
  diagnostics : List Diagnostic
  directives : Nat
deriving DecidableEq, Repr

def Report.ok (r : Report) : Bool :=
  !Diagnostic.anyError r.diagnostics

def check (text : String) : Except TreeError Report := do
  let (ds, lexical) := Directive.lex text
  let (tree, structural) ← Tree.ofDirectives ds
  let diagnostics := Diagnostic.sorted (lexical ++ structural ++ (← tree.validate))
  return { tree, diagnostics, directives := ds.length }

structure Compilation where
  report : Report
  code : Option String
deriving DecidableEq, Repr

def Report.compile (r : Report) (o : Options) : Except GenerationError Compilation :=
  if r.ok then do return { report := r, code := some (← r.tree.generate o) }
  else .ok { report := r, code := none }

def compile (text : String) (o : Options) : Except GenerationError Compilation :=
  match check text with
  | .ok r    => r.compile o
  | .error e => .error (.broken e)

inductive Note where
  | lexed (directives : Nat)
  | bound (command func : String)
  | generated (lines commands : Nat)
  | skipped (errors : Nat)
deriving DecidableEq, Repr

def Report.notes (r : Report) : List Note :=
  .lexed r.directives ::
    r.tree.nodes.filterMap fun c =>
      if c.isRoot then none else c.func.map (.bound c.name)

def Compilation.notes (c : Compilation) : List Note :=
  c.report.notes ++ [
    match c.code with
    | some code => .generated (code.toList.count '\n') c.report.tree.nodes.length
    | none      => .skipped (Diagnostic.errors c.report.diagnostics).length]

end ShellArgs
