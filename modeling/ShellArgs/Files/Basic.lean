import ShellArgs.Files.Path

-- There are no links between files.

namespace ShellArgs

-- A file that is no text in UTF-8 has no text here.
inductive Entry where
  | directory
  | file (text : Option String) (mode : Nat)
deriving DecidableEq, Repr

-- What there is at a place, given by the names on the way from the root directory. The
-- root directory has no entry.
structure Files where
  entries : List (List String × Entry)
deriving DecidableEq, Repr

-- `refused` stands for all reasons that do not lie in the files.
inductive FileError where
  | missing
  | taken
  | notADirectory
  | isADirectory
  | notText
  | refused
deriving DecidableEq, Repr

def FileError.message : FileError → String
  | missing       => "No such file or directory"
  | taken         => "File exists"
  | notADirectory => "Not a directory"
  | isADirectory  => "Is a directory"
  | notText       => "not a text in UTF-8"
  | refused       => "Operation not permitted"

namespace Files

def empty : Files where
  entries := []

def entry? (fs : Files) (place : List String) : Option Entry :=
  if place.isEmpty then some .directory else fs.entries.lookup place

def put (fs : Files) (place : List String) (e : Entry) : Files where
  entries := go fs.entries
where
  go : List (List String × Entry) → List (List String × Entry)
    | []           => [(place, e)]
    | (p, f) :: es => if p = place then (place, e) :: es else (p, f) :: go es

def locate (fs : Files) (place : List String) : List String → Except FileError (List String)
  | []      => .ok place
  | p :: ps =>
    match fs.entry? place with
    | some .directory =>
      if p = ".." then fs.locate place.dropLast ps
      else
        let next := place ++ [p]
        if (fs.entry? next).isSome then fs.locate next ps else .error .missing
    | some (.file ..) => .error .notADirectory
    | none            => .error .missing

def placeOf (fs : Files) (cwd : List String) (p : Path) : Except FileError (List String) :=
  fs.locate (if p.isAbsolute then [] else cwd) p.parts

def read (fs : Files) (cwd : List String) (p : Path) : Except FileError String := do
  match fs.entry? (← fs.placeOf cwd p) with
  | some (.file (some s) _) => return s
  | some (.file none _)     => throw .notText
  | some .directory         => throw .isADirectory
  | none                    => throw .missing

def makeOne (fs : Files) (cwd : List String) (p : Path) : Except FileError Files :=
  match fs.placeOf cwd p with
  | .ok place =>
    match fs.entry? place with
    | some .directory => .ok fs
    | _               => .error .notADirectory
  | .error .missing => do
    let above ← fs.placeOf cwd p.parent
    return fs.put (above ++ [p.name]) .directory
  | .error e => .error e

def makeDirectory (fs : Files) (cwd : List String) (p : Path) : Except FileError Files :=
  (List.range p.parts.length).foldlM
    (fun fs n => fs.makeOne cwd { p with parts := p.parts.take (n + 1) }) fs

def create (fs : Files) (place : List String) (mode : Nat) : Except FileError Files :=
  match fs.entry? place.dropLast, fs.entry? place with
  | some .directory, none   => .ok (fs.put place (.file (some "") mode))
  | some .directory, some _ => .error .taken
  | some (.file ..), _      => .error .notADirectory
  | none,            _      => .error .missing

def revise (fs : Files) (place : List String) (text : Option String → Option String)
    (mode : Nat → Nat) : Except FileError Files :=
  match fs.entry? place with
  | some (.file s m) => .ok (fs.put place (.file (text s) (mode m)))
  | some .directory  => .error .isADirectory
  | none             => .error .missing

def write (fs : Files) (place : List String) (text : String) : Except FileError Files :=
  fs.revise place (fun _ => some text) id

def setMode (fs : Files) (place : List String) (mode : Nat) : Except FileError Files :=
  fs.revise place id (fun _ => mode)

def remove (fs : Files) (place : List String) : Files where
  entries := fs.entries.filter (·.1 ≠ place)

-- Not every last part of a path is the name of a file.
def placeIn (above : List String) (name : String) : Except FileError (List String) :=
  if name = "" ∨ name = ".." then .error .isADirectory else .ok (above ++ [name])

def rename (fs : Files) (source target : List String) : Except FileError Files :=
  match fs.entry? source, fs.entry? target with
  | some _, some .directory => .error .isADirectory
  | some e, _               => .ok ((fs.remove source).put target e)
  | none,   _               => .error .missing

def overwrite (fs : Files) (cwd : List String) (p : Path) (text : String) :
    Except FileError Files := do
  let place ← placeIn (← fs.placeOf cwd p.parent) p.name
  match fs.entry? place with
  | some _ => fs.write place text
  | none   => (← fs.create place 0o644).write place text

end Files

end ShellArgs
