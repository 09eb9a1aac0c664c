import ShellArgs.Compilation
import ShellArgs.Completion.Hook
import ShellArgs.Files.Replacement
import ShellArgs.Session.Printer
import ShellArgs.Settings.Edit

namespace ShellArgs

-- What does not change while the program runs. `system` is the name of the operating
-- system, `time` the time at which the program was started, and `refusals` are the steps that
-- the system refuses.
structure Environment where
  vars : Ordered String
  system : String
  cwd : List String
  time : String
  refusals : List FileStep := []
deriving DecidableEq, Repr

namespace Environment

def value? (e : Environment) (name : String) : Option String :=
  nonempty? (e.vars.get? name)

def home (e : Environment) : Path :=
  let value := (e.vars.get? "HOME").getD ""
  let kept := (value.toList.reverse.dropWhile (· == '/')).reverse
  Path.ofText (if kept.isEmpty then "/" else String.ofList kept)

def hasBaseDirectories (e : Environment) : Bool :=
  e.system = "Linux" || e.system.toList.reverse.take 3 == ['D', 'S', 'B']

def baseDirectory (e : Environment) (name : String) (default : List String) : Path :=
  match e.value? name with
  | some base => (Path.ofText base).child "argsh"
  | none      => e.home.descend (default ++ ["argsh"])

def configDirectory (e : Environment) : Path :=
  if e.hasBaseDirectories then e.baseDirectory "XDG_CONFIG_HOME" [".config"]
  else e.home.child ".argsh"

def dataDirectory (e : Environment) : Path :=
  if e.hasBaseDirectories then e.baseDirectory "XDG_DATA_HOME" [".local", "share"]
  else e.home.descend [".argsh", "logs"]

def userSettings (e : Environment) : Path :=
  e.configDirectory.child "config.json"

def workingDirectory (e : Environment) : Path where
  root := "/"
  parts := e.cwd

def projectSettings (e : Environment) : Path :=
  e.workingDirectory.child "argsh.json"

def crashLog (e : Environment) : Path :=
  e.dataDirectory.child ("crash-" ++ e.time ++ ".log")

end Environment

structure HookRun where
  script : String
  call : Completion.HookCall
  timeout : Binary64
deriving DecidableEq, Repr

-- `processes` is what will come of the programs that are run, `input` are the lines that
-- will be read.
structure Session where
  files : Files
  chunks : List Chunk := []
  runs : List HookRun := []
  processes : List Completion.ProcessEnd := []
  input : List String := []
deriving DecidableEq, Repr

inductive Failure where
  | noScript (script : String)
  | unreadable (script : String) (cause : FileError)
  | rejected (script : String) (errors : Nat)
  | generation (cause : GenerationError)
  | settings (user project : String) (cause : Settings.LayerError)
  | edit (cause : Settings.EditError)
deriving DecidableEq, Repr

namespace Failure

def message : Failure → String
  | noScript script           => "Script not found: " ++ script
  | unreadable script cause   => "Cannot read " ++ script ++ ": " ++ cause.message
  | rejected script errors    =>
    toString errors ++ (if errors = 1 then " error" else " errors") ++ " in " ++ script
  | generation cause          => cause.message
  | settings user project cause => cause.message user project
  | edit cause                => cause.message

def status : Failure → Nat
  | noScript _ | unreadable .. => 4
  | rejected ..                => 3
  | generation _               => 5
  | settings ..                => 1
  | edit _                     => 2

end Failure

-- Nobody expects the system to refuse what is asked of it.
inductive Stop where
  | failed (f : Failure)
  | aborted
  | refused (cause : String)
deriving DecidableEq, Repr

abbrev Task := ExceptT Stop (StateM Session)

def Files.settings (fs : Files) (cwd : List String) (p : Path) : Settings.Source :=
  match fs.read cwd p with
  | .ok s           => .text s
  | .error .notText => .noText
  | .error _        => .absent

namespace Task

def print (cs : List Chunk) : Task Unit :=
  modify fun s => { s with chunks := s.chunks ++ cs }

def fail {α : Type} (f : Failure) : Task α :=
  throw (.failed f)

-- Changes the files. The system may refuse that, and then a part of it may be done.
def change (c : Change Unit) : Task Unit := do
  let (result, files) := c.run.run (← get).files
  modify fun s => { s with files }
  match result with
  | .ok ()   => return
  | .error e => throw (.refused e.message)

def makeDirectory (e : Environment) (p : Path) : Task Unit :=
  change (.makeDirectory e.refusals e.cwd p)

def replace (e : Environment) (p : Path) (text : String) (mode : Option Nat) : Task Unit :=
  change (.replace e.refusals e.cwd p text mode)

def readScript (e : Environment) (p : Path) : Task String := do
  match (← get).files.read e.cwd p with
  | .ok s           => return String.ofList (Text.normalizeLineEnds s.toList)
  | .error .missing => fail (.noScript p.text)
  | .error cause    => fail (.unreadable p.text cause)

def source (e : Environment) (p : Path) : Task Settings.Source :=
  return (← get).files.settings e.cwd p

def layer {α : Type} (e : Environment) (x : Except Settings.LayerError α) : Task α :=
  match x with
  | .ok a                     => return a
  | .error (.noSection name)  => throw (.refused ("no section " ++ name))
  | .error cause              =>
    fail (.settings e.userSettings.text e.projectSettings.text cause)

-- The directory for the settings is made on the way.
def userSource (e : Environment) : Task Settings.Source := do
  makeDirectory e e.configDirectory
  source e e.userSettings

def userSettings (e : Environment) : Task Settings := do
  layer e (Settings.ofUser (← userSource e))

def settings (e : Environment) (flags : List Settings.Override) : Task Settings := do
  let user ← userSource e
  let project ← source e e.projectSettings
  layer e (Settings.resolve user project (Settings.ofEnvironment e.vars ++ flags))

def store (e : Environment) (s : Settings) : Task Unit := do
  makeDirectory e e.configDirectory
  replace e e.userSettings s.stored none

end Task

end ShellArgs
