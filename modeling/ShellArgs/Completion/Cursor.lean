import ShellArgs.Text.Cut
import ShellArgs.Tree.Basic

namespace ShellArgs.Completion

structure Awaited where
  option : Param
  values : Nat
deriving DecidableEq, Repr

-- `used` are the names of the options and flags of the command that were given.
structure Cursor where
  command : Command
  used : List String := []
  positionals : Nat := 0
  awaited : Option Awaited := none
  optionsEnded : Bool := false
deriving DecidableEq, Repr

namespace Cursor

def use (s : Cursor) (p : Param) : Cursor :=
  { s with used := if s.used.contains p.name then s.used else s.used ++ [p.name] }

def give (s : Cursor) (p : Param) (supplied : Nat) : Cursor :=
  let s := s.use p
  if p.isFlag || p.valuesPerOccurrence ≤ supplied then s
  else { s with awaited := some ⟨p, p.valuesPerOccurrence - supplied⟩ }

def collect (s : Cursor) : Cursor :=
  { s with positionals := s.positionals + 1 }

def cluster (s : Cursor) : List Char → Cursor
  | []      => s
  | c :: cs =>
    match s.command.findOption? (String.ofList ['-', c]) with
    | none   => s
    | some p =>
      if p.isFlag then (s.use p).cluster cs
      else s.give p (if cs.isEmpty then 0 else 1)

def dashed (s : Cursor) (word : String) : Cursor :=
  let (name, value) := Text.cut '=' word
  match s.command.findOption? name with
  | some p => s.give p (if value.isSome then 1 else 0)
  | none   => if Text.startsWith word "--" then s else s.cluster (word.toList.drop 1)

def isDashed (word : String) : Bool :=
  Text.startsWith word "-" && word ≠ "-"

def takeValue (s : Cursor) (a : Awaited) : Cursor :=
  { s with awaited := if a.values ≤ 1 then none else some { a with values := a.values - 1 } }

def step (t : Tree) (s : Cursor) (word : String) : Except TreeError Cursor :=
  match s.awaited with
  | some a => .ok (s.takeValue a)
  | none   =>
    if s.optionsEnded then .ok s.collect
    else if word = "--" then .ok { s with optionsEnded := true }
    else if isDashed word then .ok (s.dashed word)
    else if s.positionals ≠ 0 then .ok s.collect
    else do
      match ← t.findChild s.command word with
      | some c => return { command := c }
      | none   => return s.collect

end Cursor

def replay (t : Tree) (words : List String) : Except TreeError Cursor := do
  words.foldlM (Cursor.step t) { command := ← t.root }

end ShellArgs.Completion
