import ShellArgs.Files.Basic

-- Putting a text in place of a file, all at once. The text is written to a draft next to the
-- file, which then takes the place of the file. If a step fails, the draft is taken away.

namespace ShellArgs

-- The steps that the system can refuse for reasons that do not lie in the files, such as a
-- full disk. It does not refuse to take away a file that was just made.
inductive FileStep where
  | makeDirectory
  | create
  | write
  | setMode
  | rename
deriving DecidableEq, Repr

-- Something that is done to files. What was done before a failure stays done.
abbrev Change := ExceptT FileError (StateM Files)

namespace Change

def step (f : Files → Except FileError Files) : Change Unit := do
  match f (← get) with
  | .ok fs   => set fs
  | .error e => throw e

variable (refusals : List FileStep)

def guarded (s : FileStep) (f : Files → Except FileError Files) : Change Unit :=
  if refusals.contains s then throw .refused else step f

def makeDirectory (cwd : List String) (p : Path) : Change Unit :=
  guarded refusals .makeDirectory (·.makeDirectory cwd p)

-- There are more candidates than files.
def draftPlace (fs : Files) (above : List String) (name : String) : List String :=
  let candidates := (List.range (fs.entries.length + 1)).map fun n =>
    above ++ ["." ++ name ++ "." ++ toString n ++ ".tmp"]
  (candidates.find? fun p => (fs.entry? p).isNone).getD above

-- Drafts can only be read by their owner, and so can the file unless it gets a mode.
def settle (draft above : List String) (name text : String) (mode : Option Nat) :
    Change Unit := do
  guarded refusals .write (·.write draft text)
  match mode with
  | some m => guarded refusals .setMode (·.setMode draft m)
  | none   => pure ()
  guarded refusals .rename fun fs => do fs.rename draft (← Files.placeIn above name)

def replace (cwd : List String) (p : Path) (text : String) (mode : Option Nat) :
    Change Unit := do
  makeDirectory refusals cwd p.parent
  let fs ← get
  match fs.placeOf cwd p.parent with
  | .error e  => throw e
  | .ok above =>
    let draft := draftPlace fs above p.name
    guarded refusals .create (·.create draft 0o600)
    try settle refusals draft above p.name text mode
    catch e =>
      modify (·.remove draft)
      throw e

end Change

end ShellArgs
