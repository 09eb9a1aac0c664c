import ShellArgs.Session.Commands

namespace ShellArgs

def GlobalFlags.printer (g : GlobalFlags) : Printer where
  format := (if g.json then .json else if g.plain then .plain else .auto : OutputFormat).resolved
  quiet := g.quiet
  verbose := g.verbose

namespace Session

def print (s : Session) (cs : List Chunk) : Session :=
  { s with chunks := s.chunks ++ cs }

def crashNote (e : Environment) (cause : String) : Change Unit := do
  Change.makeDirectory e.refusals e.cwd e.dataDirectory
  Change.guarded e.refusals .write (·.overwrite e.cwd e.crashLog (cause ++ "\n"))

-- If the note is refused too, the user is told the cause.
def logCrash (e : Environment) (cause : String) (s : Session) : Session :=
  let (result, files) := (crashNote e cause).run.run s.files
  match result with
  | .ok () =>
    { s with files }.print
      (Printer.error ("Unexpected error. Debug log: " ++ e.crashLog.text))
  | .error _ => { s with files }.print (Printer.error cause)

def perform (e : Environment) (task : Task Unit) (s : Session) : Nat × Session :=
  match (task.run s : Id _) with
  | (.ok (), s)            => (0, s)
  | (.error (.failed f), s) => (f.status, s.print (Printer.error f.message))
  | (.error .aborted, s)   => (1, s)
  | (.error (.refused cause), s) => (1, s.logCrash e cause)

def helpText : String :=
  "\n".intercalate [
    "Compile comment-annotated bash scripts into argument parsers.",
    "",
    "USAGE: argsh [--version] [--json] [--plain] [--no-color] [-q] [-v] [-f] <COMMAND>",
    "",
    "COMMANDS:",
    "  compile SCRIPT [--prog P] [--prefix P] [--no-help] [-o FILE]",
    "  build SCRIPT -o FILE [--prog P] [--prefix P] [--no-help]",
    "  check SCRIPT",
    "  inspect SCRIPT",
    "  completion show SCRIPT [--prog P]",
    "  completion install SCRIPT [--prog P]",
    "  config show",
    "  config set KEY VALUE",
    "  config reset"]

def invoke (e : Environment) (args : List String) (s : Session) : Nat × Session :=
  match Invocation.read args with
  | .error m      => (2, s.print (Printer.error m.message))
  | .ok .help     => (0, s.print (Printer.data helpText))
  | .ok .version  => (0, s.print (Printer.data ("argsh " ++ version)))
  | .ok (.run g r) => perform e (Task.ofRequest e g.printer g.force r) s

end Session

end ShellArgs
