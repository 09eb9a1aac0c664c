-- Paths of files. Paths that differ only in repeated slashes or in dots that stand for the
-- same directory are the same path. Two dots are kept, for what they stand for depends on
-- the files.

namespace ShellArgs

-- `root` is empty for a path that starts at the working directory.
structure Path where
  root : String
  parts : List String
deriving DecidableEq, Repr

namespace Path

-- Two slashes at the start are a root of their own, three are one.
def rootOf : List Char → String
  | ['/', '/']     => "//"
  | '/' :: '/' :: c :: _ => if c = '/' then "/" else "//"
  | '/' :: _       => "/"
  | _              => ""

def ofText (s : String) : Path where
  root := rootOf s.toList
  parts := ((s.toList.splitOn '/').map String.ofList).filter fun p => p ≠ "" ∧ p ≠ "."

def text (p : Path) : String :=
  let s := p.root ++ "/".intercalate p.parts
  if s = "" then "." else s

def isAbsolute (p : Path) : Bool :=
  p.root ≠ ""

def name (p : Path) : String :=
  p.parts.getLast?.getD ""

def parent (p : Path) : Path :=
  { p with parts := p.parts.dropLast }

def under (p base : Path) : Path :=
  if p.isAbsolute then p else { base with parts := base.parts ++ p.parts }

def child (p : Path) (name : String) : Path :=
  (ofText name).under p

def descend (p : Path) (names : List String) : Path :=
  names.foldl child p

-- The path without two dots, as it is without links between directories.
def resolved (p : Path) : Path :=
  { p with parts := go [] p.parts }
where
  go (done : List String) : List String → List String
    | []      => done.reverse
    | q :: qs => if q = ".." then go done.tail qs else go (q :: done) qs

end Path

end ShellArgs
