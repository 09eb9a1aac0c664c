import ShellArgs.Session.Run

-- The program. It loads the files that a run may look at, lets the run happen, and then
-- prints what it printed and writes what it changed.

namespace ShellArgs.Program

def requestPaths (e : Environment) : Request → List Path
  | .compile script _ output => Path.ofText script :: (output.map Path.ofText).toList
  | .build script _ output   => [.ofText script, .ofText output]
  | .check script | .inspect script | .complete script _ _ | .showCompletion script _ =>
    [.ofText script]
  | .installCompletion script prog =>
    let target := (nonempty? prog).getD (Path.ofText script).name
    [.ofText script, (e.home.child ".bash_completion.d").child target]
  | .showSettings | .setSetting _ _ | .resetSettings => []

def paths (e : Environment) (i : Invocation) : List Path :=
  match i with
  | .run _ r => [e.userSettings, e.projectSettings, e.crashLog] ++ requestPaths e r
  | _        => []

def place (e : Environment) (p : Path) : List String :=
  (p.under e.workingDirectory).resolved.parts

def placeText (place : List String) : String :=
  "/" ++ "/".intercalate place

def entryAt (place : List String) : IO (Option Entry) := do
  let path := placeText place
  try
    if ← (← IO.FS.realPath path).isDir then return some .directory
    else
      let bytes ← IO.FS.readBinFile path
      return some (.file (String.fromUTF8? bytes) 0o644)
  catch _ => return none

def load (fs : Files) (place : List String) : IO Files :=
  (List.range place.length).foldlM (fun fs n => do
    let p := place.take (n + 1)
    match ← entryAt p with
    | some e => return fs.put p e
    | none   => return fs) fs

def rightsOf (n : Nat) : IO.AccessRight where
  read := n.testBit 2
  write := n.testBit 1
  execution := n.testBit 0

def rights (mode : Nat) : IO.FileRight where
  user := rightsOf (mode / 64)
  group := rightsOf (mode / 8)
  other := rightsOf mode

-- Writes a new text next to the old one, and then puts it in its place.
def replace (place : List String) (text : String) (mode : Nat) : IO Unit := do
  let name := place.getLast?.getD ""
  let draft := placeText (place.dropLast ++ ["." ++ name ++ ".tmp"])
  try
    IO.FS.writeFile draft text
    IO.setAccessRights draft (rights mode)
    IO.FS.rename draft (placeText place)
  catch e =>
    try IO.FS.removeFile draft catch _ => pure ()
    throw e

def save (old new : Files) : IO Unit :=
  new.entries.forM fun (place, e) => do
    if old.entry? place ≠ some e then
      match e with
      | .directory           => IO.FS.createDirAll (placeText place)
      | .file (some text) mode => replace place text mode
      | .file none _         => pure ()

def variableNames : List String :=
  ["HOME", "XDG_CONFIG_HOME", "XDG_DATA_HOME", "ARGSH_PREFIX", "ARGSH_NO_HELP",
    "ARGSH_HOOK_TIMEOUT"]

def systemName : IO String := do
  try
    return (← IO.FS.readFile "/proc/sys/kernel/ostype").trimAscii.toString
  catch _ => return "Darwin"

def environment : IO Environment := do
  let vars ← variableNames.filterMapM fun n => do
    return (← IO.getEnv n).map (n, ·)
  let cwd := Path.ofText (← IO.currentDir).toString
  return { vars, system := ← systemName, cwd := cwd.parts, time := toString (← IO.monoMsNow) }

partial def converse (question : String) (lines : List String) : IO (List String) := do
  let out ← IO.getStdout
  out.putStr question
  out.flush
  let line ← (← IO.getStdin).getLine
  if line.isEmpty then return lines
  else
    let lines := lines ++ [line]
    match Task.Answer.ofLine line with
    | .unclear =>
      out.putStr Task.unclearNote
      converse question lines
    | _        => return lines

def answers (i : Invocation) : IO (Option (List String)) :=
  match i with
  | .run { force := false, .. } .resetSettings => some <$> converse Task.resetQuestion []
  | _                                          => return none

def run (args : List String) : IO UInt32 := do
  let e ← environment
  let invocation := (Invocation.read args).toOption
  let files ← ((invocation.toList.flatMap (paths e)).map (place e)).foldlM load Files.empty
  let input ← (invocation.map answers).getD (pure none)
  let session : Session := {
    files
    input := input.getD []
    processes := [.notStarted "scripts cannot be run here"] }
  let (status, session) := session.invoke e args
  save files session.files
  if input.isNone then
    let out ← IO.getStdout
    out.putStr (Stream.output.written session.chunks)
    out.flush
  (← IO.getStderr).putStr (Stream.errors.written session.chunks)
  return status.toUInt32

end ShellArgs.Program

def main (args : List String) : IO UInt32 :=
  ShellArgs.Program.run args
