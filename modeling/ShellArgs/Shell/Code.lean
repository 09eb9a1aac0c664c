import ShellArgs.Shell.Pattern

-- Lines of shell code. What the laws of the generated code are about has a form of its own,
-- the rest is text.

namespace ShellArgs.Shell

def expand (s : String) : String :=
  "$\x7b" ++ s ++ "\x7d"

def doubleQuoted (s : String) : String :=
  "\"" ++ s ++ "\""

def expandQuoted (s : String) : String :=
  doubleQuoted (expand s)

inductive Assigned where
  | scalar (word : String)
  | array (words : List String)
deriving DecidableEq, Repr

def Assigned.isArray : Assigned → Bool
  | scalar _ => false
  | array _  => true

def Assigned.written : Assigned → String
  | scalar word => word
  | array words => "(" ++ " ".intercalate words ++ ")"

structure Assignment where
  target : String
  append : Bool
  value : Assigned
deriving DecidableEq, Repr

def Assignment.written (a : Assignment) : String :=
  a.target ++ (if a.append then "+=" else "=") ++ a.value.written

inductive Statement where
  | text (s : String)
  | assign (a : Assignment)
  | shift (count : Option Nat)
  | needValues (form : String) (count : Nat) (words : String)
  | overArray (element array : String)
  | arm (patterns : List Pattern)
deriving DecidableEq, Repr

def Statement.written : Statement → String
  | text s           => s
  | assign a         => a.written
  | shift none       => "shift"
  | shift (some n)   => "shift " ++ toString n
  | needValues form count words =>
    "_argsh_need_values " ++ quote form ++ " " ++ toString count ++ " " ++ words
  | overArray element array =>
    "for " ++ element ++ " in " ++
      expand (array ++ "[@]+" ++ expandQuoted (array ++ "[@]")) ++ "; do"
  | arm patterns     => Pattern.alternatives patterns

structure Line where
  depth : Nat
  statement : Statement
deriving DecidableEq, Repr

def Statement.line (s : Statement) : Line :=
  ⟨0, s⟩

def line (s : String) : Line :=
  (Statement.text s).line

def assignLine (target : String) (value : Assigned) : Line :=
  (Statement.assign { target, append := false, value }).line

def appendLine (target : String) (value : Assigned) : Line :=
  (Statement.assign { target, append := true, value }).line

def shiftLine (count : Option Nat) : Line :=
  (Statement.shift count).line

def armLine (patterns : List Pattern) : Line :=
  (Statement.arm patterns).line

def armEnd : Line :=
  line ";;"

-- Lines without text are not set in.
def Line.written (l : Line) : String :=
  let s := l.statement.written
  if s = "" then "" else String.ofList (List.replicate (4 * l.depth) ' ') ++ s

def indent (ls : List Line) : List Line :=
  ls.map fun l => { l with depth := l.depth + 1 }

@[simp] theorem indent_append (ls ms : List Line) : indent (ls ++ ms) = indent ls ++ indent ms := by
  simp [indent]

def conditional (test : String) (body : List Line) : List Line :=
  [line ("if " ++ test ++ "; then")] ++ indent body ++ [line "fi"]

def written (ls : List Line) : List String :=
  ls.map Line.written

-- The texts of the body may have several lines each.
structure FunctionDef where
  name : String
  body : List String
deriving DecidableEq, Repr

def FunctionDef.written (f : FunctionDef) : String :=
  "\n".intercalate ([f.name ++ "() \x7b"] ++ f.body ++ ["\x7d"])

end ShellArgs.Shell
