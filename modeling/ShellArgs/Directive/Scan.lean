import ShellArgs.Directive.Lexer
import ShellArgs.Ordered

-- Reading the directives of a script one at a time. Several readers can be on their way
-- through one script, each at its own pace. They share the record of the problems they have
-- met, which a reader begins anew when it sets out.

namespace ShellArgs.Directive

def next : List Event → List Diagnostic × Option Directive × List Event
  | []                 => ([], none, [])
  | .directive d :: es => ([], some d, es)
  | e :: es            =>
    let (ds, d, es) := next es
    (e.diagnostic?.toList ++ ds, d, es)

theorem filterMap_directive_next (es : List Event) :
    (next es).2.1.toList ++ (next es).2.2.filterMap Event.directive? =
      es.filterMap Event.directive? := by
  induction es with
  | nil => rfl
  | cons e es hi =>
    cases e with
    | directive => rfl
    | problem   => simpa [next, List.filterMap_cons, Event.directive?] using hi

-- `ahead` is what the reader has not come to yet.
structure Reader where
  ahead : List Event
  started : Bool := false
deriving DecidableEq, Repr

structure Scan where
  script : List Event
  readers : Ordered Reader := []
  diagnostics : List Diagnostic := []
deriving DecidableEq, Repr

namespace Scan

def ofText (script : String) : Scan where
  script := eventsOf script

def enter (s : Scan) (name : String) : Scan :=
  { s with readers := s.readers.put name { ahead := s.script } }

def advance (s : Scan) (name : String) (r : Reader) : Option Directive × Scan :=
  let (met, d, ahead) := next r.ahead
  (d, { s with
    readers := s.readers.put name { ahead, started := true }
    diagnostics := (if r.started then s.diagnostics else []) ++ met })

def advance? (s : Scan) (name : String) : Option (Option Directive × Scan) :=
  (s.readers.get? name).map (s.advance name)

def readAll (s : Scan) : List Directive × Scan :=
  (s.script.filterMap Event.directive?,
    { s with diagnostics := s.script.filterMap Event.diagnostic? })

end Scan

end ShellArgs.Directive
