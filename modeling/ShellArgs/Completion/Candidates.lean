import ShellArgs.Completion.Cursor
import ShellArgs.Completion.Words
import ShellArgs.Diagnostic

namespace ShellArgs.Completion

-- Texts that start with `typed` are candidates, with `before` in front of them.
structure Question where
  known : List String
  source : Option Param
  typed : String
  before : String := ""
deriving DecidableEq, Repr

def positionalAt (c : Command) (n : Nat) : Option Param :=
  match c.positionals[n]? with
  | some p => some p
  | none   => c.positionals.getLast?.filter (·.multiple)

def optionNames (s : Cursor) (addHelp : Bool) : List String :=
  let options := s.command.options.filter fun p => p.multiple || !s.used.contains p.name
  options.filterMap (fun p => nonempty? p.long <|> nonempty? p.short) ++
    if addHelp && (s.command.findOption? "--help").isNone then ["--help"] else []

def optionQuestion (s : Cursor) (typed : String) (addHelp : Bool) : Option Question :=
  match Text.cut '=' typed with
  | (name, some value) =>
    match s.command.findOption? name with
    | some p => if p.isFlag then none else some ⟨[], some p, value, name ++ "="⟩
    | none   => none
  | (_, none) => some ⟨optionNames s addHelp, none, typed, ""⟩

def question (t : Tree) (s : Cursor) (typed : String) (addHelp : Bool) :
    Except TreeError (Option Question) := do
  match s.awaited with
  | some a => return some ⟨[], some a.option, typed, ""⟩
  | none   =>
    if !s.optionsEnded && Text.startsWith typed "-" then return optionQuestion s typed addHelp
    else
      let children ←
        if s.positionals = 0 && !s.optionsEnded then t.childrenOf s.command else pure []
      return some ⟨children.flatMap (·.callNames), positionalAt s.command s.positionals, typed, ""⟩

def matching (texts : List String) (typed : String) : List String :=
  (texts.filter (Text.startsWith · typed)).eraseDups

def Question.candidates (q : Question) (computed : List String) : List String :=
  let values := match q.source with
    | some p => p.choices ++ computed
    | none   => []
  (matching (q.known ++ values) q.typed).map (q.before ++ ·)

inductive HookAnswer where
  | lines (ls : List String)
  | failed (reason : String)
  | crashed
deriving DecidableEq, Repr

abbrev HookRunner := String → List String → HookAnswer

structure HookCall where
  fn : String
  words : List String
deriving DecidableEq, Repr

structure Result where
  candidates : List String := []
  diagnostics : List Diagnostic := []
  calls : List HookCall := []
deriving DecidableEq, Repr

def hookWarning (p : Param) (reason : String) : Diagnostic where
  line := p.line
  message := reason
  severity := .warning
  stage := .completion
  column := none

def answer (q : Question) (words : List String) (runner : Option HookRunner) : Result :=
  match q.source, q.source.bind (nonempty? ·.choicesFn), runner with
  | some p, some fn, some run =>
    let calls := [⟨fn, words⟩]
    match run fn words with
    | .lines ls      => { candidates := q.candidates ls, calls }
    | .failed reason =>
      { candidates := q.candidates [], diagnostics := [hookWarning p reason], calls }
    | .crashed       => { calls }
  | _, _, _ => { candidates := q.candidates [] }

def ask (t : Tree) (l : Line) (addHelp : Bool) :
    Except TreeError (Option (Question × List String)) :=
  if l.cursor < 1 || l.words.length < l.cursor then .ok none
  else do
    let n := l.cursor.toNat
    let before := (l.words.take n).drop 1
    let typed := l.words[n]?.getD ""
    let q ← question t (← replay t before) typed addHelp
    return q.map (·, before ++ [typed])

-- Readline replaces only what follows the last `=`.
def afterEquals (candidate : String) : String :=
  (Text.cut '=' candidate).2.getD ""

-- The cursor may stand behind the last word. A broken completion must not disturb the shell, so that
-- it has no candidates rather than an error.
def complete (t : Tree) (words : List String) (cursor : Int) (runner : Option HookRunner)
    (addHelp : Bool) : Result :=
  let l := joinEquals words cursor
  match ask t l addHelp with
  | .ok (some (q, before)) =>
    let r := answer q before runner
    if l.split then { r with candidates := r.candidates.map afterEquals } else r
  | _ => {}

end ShellArgs.Completion
