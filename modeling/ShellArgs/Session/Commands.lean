import ShellArgs.Completion.Registration
import ShellArgs.Inlining
import ShellArgs.Session.Basic
import ShellArgs.Session.Invocation

namespace ShellArgs

def Note.text : Note → String
  | lexed n              => "argsh.compiler: lexed " ++ toString n ++ " directive tokens"
  | bound command func   =>
    "argsh.generator.command_tree: bound command " ++ command ++ " to function " ++ func
  | generated lines commands =>
    "argsh.generator.bash: generated " ++ toString lines ++ " lines of bash for " ++
      toString commands ++ " commands"
  | skipped n            => "argsh.compiler: skipping generation: " ++ toString n ++ " error(s)"

namespace Task

variable (e : Environment) (pr : Printer)

def printNotes (ns : List Note) : Task Unit :=
  print (ns.flatMap fun n => pr.debug n.text)

-- Trees of scripts are sound, so that none is refused here.
def checkScript (text : String) : Task Report :=
  match check text with
  | .ok r    => return r
  | .error i => throw (.refused (GenerationError.broken i).message)

def compileScript (text : String) (o : Options) : Task Compilation :=
  match compile text o with
  | .ok c                  => return c
  | .error (.invalid d)    => fail (.generation (.invalid d))
  | .error cause           => throw (.refused cause.message)

def report (r : Report) (script : Path) : Task Unit := do
  print (pr.diagnostics r.diagnostics script.text)
  if r.ok then return
  else fail (.rejected script.text (Diagnostic.errors r.diagnostics).length)

def options (script : Path) (prog : Option String) (flags : CompileFlags) : Task Options := do
  let s ← settings e (Settings.ofFlags flags.stem flags.noHelp none)
  return s.compile.options ((nonempty? prog).getD script.name)

def compiled (script : Path) (text : String) (o : Options) : Task (Report × String) := do
  let c ← compileScript text o
  printNotes pr c.notes
  report pr c.report script
  match c.code with
  | some code => return (c.report, code)
  | none      => throw (.refused "no code")

def compileCommand (script : Path) (flags : CompileFlags) (output : Option Path) : Task Unit := do
  let o ← options e script flags.prog flags
  let text ← readScript e script
  let (r, code) ← compiled pr script text o
  print (pr.debug ("Generated " ++ toString (code.toList.count '\n') ++ " lines for " ++
    toString r.tree.nodes.length ++ " commands"))
  match output with
  | some p =>
    replace e p code none
    print (pr.success ("Wrote parser to " ++ p.text))
  | none   => print (Printer.code code)

def buildCommand (script : Path) (flags : CompileFlags) (output : Path) : Task Unit := do
  let text ← readScript e script
  let prog := (nonempty? flags.prog).getD output.name
  let o ← options e script (some prog) flags
  let (_, code) ← compiled pr script text o
  replace e output (inlined text code) (some 0o755)
  print (pr.success ("Built " ++ output.text))

def checkCommand (script : Path) : Task Unit := do
  let r ← checkScript (← readScript e script)
  printNotes pr r.notes
  report pr r script
  let n := (Diagnostic.warnings r.diagnostics).length
  print (if n = 0 then pr.success (script.text ++ ": no problems found")
    else pr.suggest (toString n ++ " warning(s); the script still compiles."))

def row (t : Tree) (c : Command) : Except TreeError (List String) := do
  let path := " ".intercalate (← t.path c)
  let params := c.params.map fun p => p.forms.headD ("<" ++ p.name ++ ">")
  return [if path = "" then "(root)" else path, ", ".intercalate c.aliases, c.func.getD "",
    " ".intercalate params, c.summary]

def rows (t : Tree) : Except TreeError (List (List String)) := do
  (← t.walk).mapM (row t)

def inspectCommand (script : Path) : Task Unit := do
  let r ← checkScript (← readScript e script)
  printNotes pr r.notes
  report pr r script
  if pr.format = .json then print (Printer.json r.tree.toJson)
  else
    match rows r.tree with
    | .ok rows => print (pr.table ["Command", "Aliases", "Function", "Parameters", "Help"] rows)
    | .error i => throw (.refused (GenerationError.broken i).message)

def candidates (script : Path) (r : Report) (s : Settings) (cursor : Int) (words : List String) :
    Task Unit := do
  let ps := (← get).processes
  let process := ps.headD (.exited 0 "" "")
  let runner : Completion.HookRunner := fun fn _ => process.hookAnswer fn s.hookTimeout
  let found := Completion.complete r.tree words cursor (some runner) s.compile.addHelp
  let runs := found.calls.map fun call =>
    { script := script.text, call, timeout := s.hookTimeout }
  modify fun s => { s with runs := s.runs ++ runs, processes := ps.drop runs.length }
  print (pr.diagnostics found.diagnostics script.text)
  print (found.candidates.flatMap Printer.data)

-- Completion never fails loudly, for the user is in the middle of a command line.
def completeCommand (script : Path) (cursor : Int) (words : List String) : Task Unit := do
  try
    let s ← settings e []
    let r ← checkScript (← readScript e script)
    printNotes pr r.notes
    if r.ok then candidates pr script r s cursor words
    else
      print (pr.debug ("completion disabled: " ++
        toString (Diagnostic.errors r.diagnostics).length ++ " error(s) in " ++ script.text))
  catch
    | .failed f => print (pr.debug ("completion disabled: " ++ f.message))
    | stop      => throw stop

def registration (script : Path) (prog : Option String) : Task (String × String) := do
  let _ ← readScript e script
  let name := (nonempty? prog).getD script.name
  let whole := (script.under e.workingDirectory).resolved
  return (name, Completion.registration name whole.text)

def showCompletionCommand (script : Path) (prog : Option String) : Task Unit := do
  let (_, text) ← registration e script prog
  print (Printer.data (String.ofList (text.toList.reverse.dropWhile (· == '\n')).reverse))

def installCompletionCommand (script : Path) (prog : Option String) : Task Unit := do
  let (name, text) ← registration e script prog
  let target := (e.home.child ".bash_completion.d").child name
  replace e target text none
  print (pr.success ("Installed completion for " ++ name ++ " to " ++ target.text) ++
    pr.info "Restart your shell or run:" ++ pr.suggest ("source " ++ target.text))

-- The rows up to the first one that cannot be printed, or the whole object if it can.
def settingsTable (s : Settings) : List Chunk :=
  let rows := s.rows.map fun (key, value) => value.unicode?.map ([key, ·])
  if pr.format = .json then if rows.all Option.isSome then Printer.json s.toJson else []
  else pr.table ["Key", "Value"] ((rows.takeWhile Option.isSome).filterMap id)

def showSettingsCommand : Task Unit := do
  let s ← userSettings e
  print (pr.info ("Config directory: " ++ e.configDirectory.text))
  print (settingsTable pr s)
  if s.rows.any (·.2.unicode?.isNone) then throw (.refused "surrogates not allowed")

def setSettingCommand (key value : String) : Task Unit := do
  let s ← userSettings e
  match s.edit key value with
  | .error cause  => fail (.edit cause)
  | .ok (s, w) =>
    store e s
    print (pr.success ("Set " ++ key ++ " = " ++ (Settings.shown w).escaped))

inductive Answer where
  | yes
  | no
  | unclear
deriving DecidableEq, Repr

-- No answer means no.
def Answer.ofLine (line : String) : Answer :=
  let s := Text.trim (line.toList.map Char.toLower)
  if s = "y".toList ∨ s = "yes".toList then yes
  else if s = "".toList ∨ s = "n".toList ∨ s = "no".toList then no
  else unclear

def unclearNote : String := "Error: invalid input\n"

def resetQuestion : String := "Reset all config to defaults? [y/N]: "

def confirm (question : String) : List String → Task Bool
  | []            => do
    print [⟨.output, question⟩]
    print (Printer.note "Aborted.")
    throw .aborted
  | line :: lines => do
    print [⟨.output, question⟩]
    modify fun s => { s with input := lines }
    match Answer.ofLine line with
    | .yes     => return true
    | .no      => return false
    | .unclear =>
      print [⟨.output, unclearNote⟩]
      confirm question lines

def resetSettingsCommand (force : Bool) : Task Unit := do
  let sure ←
    if force then pure true
    else confirm resetQuestion (← get).input
  if sure then
    store e {}
    print (pr.success "Configuration reset to defaults.")
  else print (pr.info "Cancelled.")

def ofRequest (force : Bool) : Request → Task Unit
  | .compile script flags output    =>
    compileCommand e pr (.ofText script) flags (output.map .ofText)
  | .build script flags output      => buildCommand e pr (.ofText script) flags (.ofText output)
  | .check script                   => checkCommand e pr (.ofText script)
  | .inspect script                 => inspectCommand e pr (.ofText script)
  | .complete script cursor words   => completeCommand e pr (.ofText script) cursor words
  | .showCompletion script prog     => showCompletionCommand e (.ofText script) prog
  | .installCompletion script prog  => installCompletionCommand e pr (.ofText script) prog
  | .showSettings                   => showSettingsCommand e pr
  | .setSetting key value           => setSettingCommand e pr key value
  | .resetSettings                  => resetSettingsCommand e pr force

end Task

end ShellArgs
