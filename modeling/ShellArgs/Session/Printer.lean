import ShellArgs.Diagnostic
import ShellArgs.Json.Printer

-- What a program prints. What was asked for goes to standard output, which another program
-- may read; what is told about the run goes to standard error.

namespace ShellArgs

inductive OutputFormat where
  | auto
  | json
  | plain
  | rich
deriving DecidableEq, Repr

namespace OutputFormat

def name : OutputFormat → String
  | auto  => "auto"
  | json  => "json"
  | plain => "plain"
  | rich  => "rich"

def ofName? : String → Option OutputFormat
  | "auto"  => some auto
  | "json"  => some json
  | "plain" => some plain
  | "rich"  => some rich
  | _       => none

theorem ofName?_name (f : OutputFormat) : ofName? f.name = some f := by
  cases f <;> rfl

def resolved : OutputFormat → OutputFormat
  | auto => plain
  | f    => f

end OutputFormat

inductive Stream where
  | output
  | errors
deriving DecidableEq, Repr

structure Chunk where
  stream : Stream
  text : String
deriving DecidableEq, Repr

def Stream.written (stream : Stream) (cs : List Chunk) : String :=
  String.join ((cs.filter (·.stream == stream)).map (·.text))

theorem Stream.written_append (stream : Stream) (cs ds : List Chunk) :
    stream.written (cs ++ ds) = stream.written cs ++ stream.written ds := by
  simp [written]

-- A quiet printer leaves out what is told about a run that goes well.
structure Printer where
  format : OutputFormat := .plain
  quiet : Bool := false
  verbose : Bool := false
deriving DecidableEq, Repr

-- Standard error escapes what it cannot write. Standard output refuses it.
def RawText.escaped (t : RawText) : String :=
  String.ofList <| t.points.flatMap fun
    | .char c => [c]
    | .half n => Json.hex4 (0xD800 + n)

instance : CoeTail RawText String :=
  ⟨RawText.escaped⟩

namespace Printer

def data (s : String) : List Chunk :=
  [⟨.output, s ++ "\n"⟩]

def code (s : String) : List Chunk :=
  [⟨.output, s⟩]

def json (v : Json) : List Chunk :=
  data (v.indented .unicode)

def table (pr : Printer) (headers : List String) (rows : List (List String)) : List Chunk :=
  match pr.format with
  | .json =>
    json (.arr (rows.map fun r => .obj (Ordered.ofEntries (headers.zip (r.map .str)))))
  | _     => (headers :: rows).flatMap fun r => data ("\t".intercalate r)

def note (s : String) : List Chunk :=
  [⟨.errors, s ++ "\n"⟩]

def info (pr : Printer) (s : String) : List Chunk :=
  if pr.quiet then [] else note s

def success (pr : Printer) (s : String) : List Chunk :=
  pr.info s

def suggest (pr : Printer) (s : String) : List Chunk :=
  pr.info ("→ " ++ s)

def warning (s : String) : List Chunk :=
  note ("Warning: " ++ s)

def error (s : String) : List Chunk :=
  note ("Error: " ++ s)

def debug (pr : Printer) (s : String) : List Chunk :=
  if pr.verbose then note ("[debug] " ++ s) else []

-- Errors are always printed.
def diagnostics (pr : Printer) (ds : List Diagnostic) (source : String) : List Chunk :=
  ds.flatMap fun d => if pr.quiet && !d.isError then [] else note (d.render source)

end Printer

end ShellArgs
