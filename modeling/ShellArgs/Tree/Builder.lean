import ShellArgs.Descriptor.Read
import ShellArgs.Directive.Basic
import ShellArgs.Text.Line
import ShellArgs.Tree.Basic

-- Building a tree from directives. Directives before the first command describe the
-- script. A command is pending from its own directive to the next function, which names it
-- and may put it below another command: `parent::child`.

namespace ShellArgs

structure EnvBinding where
  envVar : String
  target : String
  line : Int
deriving DecidableEq, Repr

structure PendingCommand where
  line : Int
  help : String
  aliases : List (String × Int) := []
  params : List Param := []
  env : List EnvBinding := []
  before : Option String := none
  after : Option String := none
deriving DecidableEq, Repr

inductive Scope where
  | header
  | command (p : PendingCommand)
  | closed
deriving DecidableEq, Repr

structure Builder where
  tree : Tree := .empty
  diagnostics : List Diagnostic := []
  scope : Scope := .header
  headerEnv : List EnvBinding := []
deriving DecidableEq, Repr

namespace Builder

inductive Problem where
  | missingFunction
  | stranded (kind : DirectiveKind)
  | repeatedDescription
  | headerOnly (kind : DirectiveKind)
  | aliasesInHeader
  | malformedEnv (text : String)
  | repeatedHook (kind : DirectiveKind)
  | malformedFunction (function : String)
  | unknownParent (parent function : String)
  | repeatedCommand (name : String)
  | repeatedName (word command : String)
  | takenName (word command sibling : String)
  | unknownTarget (envVar target : String)
  | rebound (param old new : String)
deriving DecidableEq, Repr

namespace Problem

def severity : Problem → Severity
  | repeatedDescription | repeatedName .. | rebound .. => .warning
  | _ => .error

def message : Problem → String
  | missingFunction => "@cmd is not followed by a function definition"
  | stranded kind =>
    "'@" ++ kind.name ++ "' appears after a command function; " ++
      "start a new @cmd or move it into the script header"
  | repeatedDescription => "duplicate @describe for the script"
  | headerOnly kind => "'@" ++ kind.name ++ "' is only allowed in the script header"
  | aliasesInHeader => "@alias must follow a @cmd directive"
  | malformedEnv text => "@env expects 'VARIABLE param', got '" ++ text ++ "'"
  | repeatedHook kind => "duplicate '@" ++ kind.name ++ "' hook"
  | malformedFunction function => "invalid command function name '" ++ function ++ "'"
  | unknownParent parent function =>
    "unknown parent command '" ++ parent ++ "' for function '" ++ function ++ "'; " ++
      "declare the parent command first"
  | repeatedCommand name => "duplicate command name '" ++ name ++ "'"
  | repeatedName word command =>
    "duplicate alias '" ++ word ++ "' for command '" ++ command ++ "'"
  | takenName word command sibling =>
    "alias '" ++ word ++ "' of command '" ++ command ++ "' conflicts with sibling command '" ++
      sibling ++ "'"
  | unknownTarget var target => "@env binds " ++ var ++ " to unknown parameter '" ++ target ++ "'"
  | rebound param old new =>
    "parameter '" ++ param ++ "' was bound to $" ++ old ++ "; rebinding to $" ++ new

def located (p : Problem) (line : Int) : Diagnostic where
  line := line
  message := p.message
  severity := p.severity
  stage := .tree
  column := none

end Problem

def report (b : Builder) (line : Int) (p : Problem) : Builder :=
  { b with diagnostics := b.diagnostics ++ [p.located line] }

def reportAll (b : Builder) (ds : List Diagnostic) : Builder :=
  { b with diagnostics := b.diagnostics ++ ds }

def modifyRoot (b : Builder) (f : Command → Command) : Builder :=
  { b with tree := b.tree.modify 0 f }

def modifyFirst {α : Type} (p : α → Bool) (f : α → α) : List α → List α
  | []      => []
  | a :: as => if p a then f a :: as else a :: modifyFirst p f as

-- Later bindings win.
def bindEnv : List EnvBinding → List Param → List Param × List Diagnostic
  | [],      ps => (ps, [])
  | e :: es, ps =>
    match ps.find? (·.answersTo e.target) with
    | none =>
      let (ps, ds) := bindEnv es ps
      (ps, (Problem.unknownTarget e.envVar e.target).located e.line :: ds)
    | some p =>
      let d := match p.envVar with
        | some old =>
          if old ≠ e.envVar then [(Problem.rebound p.name old e.envVar).located e.line] else []
        | none => []
      let bound := modifyFirst (·.answersTo e.target) ({ · with envVar := some e.envVar }) ps
      let (ps, ds) := bindEnv es bound
      (ps, d ++ ds)

-- One line feed may follow.
def envBinding? (text : String) : Option (String × String) :=
  let s := text.toList
  let var := s.takeWhile Shell.isNameChar
  let s := s.dropWhile Shell.isNameChar
  let target := (Text.trimLeft s).takeWhile (!Text.isBlank ·)
  let rest := (Text.trimLeft s).dropWhile (!Text.isBlank ·)
  if Shell.isName var && s.head?.any Text.isBlank && !target.isEmpty &&
    (rest == [] || rest == ['\n'])
  then some (String.ofList var, String.ofList target)
  else none

def onDescribe (b : Builder) (d : Directive) : Except TreeError Builder :=
  match b.scope with
  | .closed    => return b.report d.line (.stranded d.kind)
  | .command p => return { b with scope := .command { p with help := d.text } }
  | .header    => do
    let root ← b.tree.root
    let b := if root.help = "" then b else b.report d.line .repeatedDescription
    return b.modifyRoot ({ · with help := d.text })

def onMetadata (b : Builder) (d : Directive) : Builder :=
  match b.scope with
  | .header =>
    if d.kind = .version then b.modifyRoot ({ · with version := some d.text })
    else b.modifyRoot ({ · with author := some d.text })
  | _ => b.report d.line (.headerOnly d.kind)

def onCommand (b : Builder) (d : Directive) : Builder :=
  let b := match b.scope with
    | .command p => b.report p.line .missingFunction
    | _          => b
  { b with scope := .command { line := d.line, help := d.text } }

def onAliases (b : Builder) (d : Directive) : Builder :=
  match b.scope with
  | .closed    => b.report d.line (.stranded d.kind)
  | .header    => b.report d.line .aliasesInHeader
  | .command p =>
    let names := (d.text.toList.splitOn ',').map fun s => (String.ofList (Text.trim s), d.line)
    { b with scope := .command { p with aliases := p.aliases ++ names } }

def onParam (b : Builder) (d : Directive) (kind : ParamKind) : Builder :=
  match b.scope with
  | .closed => b.report d.line (.stranded d.kind)
  | scope   =>
    match Descriptor.read kind d.text d.line with
    | .error f => b.reportAll [f.diagnostic d.line]
    | .ok p    =>
      match scope with
      | .command c => { b with scope := .command { c with params := p.insert c.params } }
      | _          => b.modifyRoot (·.addParam p)

def onEnv (b : Builder) (d : Directive) : Builder :=
  match b.scope with
  | .closed => b.report d.line (.stranded d.kind)
  | scope   =>
    match envBinding? d.text with
    | none               => b.report d.line (.malformedEnv d.text)
    | some (var, target) =>
      match scope with
      | .command p =>
        { b with scope := .command { p with env := p.env ++ [⟨var, target, d.line⟩] } }
      | _          => { b with headerEnv := b.headerEnv ++ [⟨var, target, d.line⟩] }

def onBefore (b : Builder) (d : Directive) : Except TreeError Builder :=
  match b.scope with
  | .closed    => return b.report d.line (.stranded d.kind)
  | .command p =>
    if p.before.isSome then return b.report d.line (.repeatedHook d.kind)
    else return { b with scope := .command { p with before := some d.text } }
  | .header    => do
    if (← b.tree.root).before.isSome then return b.report d.line (.repeatedHook d.kind)
    else return b.modifyRoot ({ · with before := some d.text })

def onAfter (b : Builder) (d : Directive) : Except TreeError Builder :=
  match b.scope with
  | .closed    => return b.report d.line (.stranded d.kind)
  | .command p =>
    if p.after.isSome then return b.report d.line (.repeatedHook d.kind)
    else return { b with scope := .command { p with after := some d.text } }
  | .header    => do
    if (← b.tree.root).after.isSome then return b.report d.line (.repeatedHook d.kind)
    else return b.modifyRoot ({ · with after := some d.text })

-- An error holds the names up to the first one that is not known.
def descend (t : Tree) (c : Command) (reached : List String) :
    List String → Except TreeError (Except (List String) Command)
  | []      => return .ok c
  | n :: ns => do
    match ← t.findChild c n with
    | some child => descend t child (reached ++ [n]) ns
    | none       => return .error (reached ++ [n])

def addName (b : Builder) (index : Int) (word : String) : Builder :=
  { b with tree := b.tree.modify index.toNat fun c => { c with aliases := c.aliases ++ [word] } }

-- An alias that already calls a sibling is left out.
def claimNames (b : Builder) (parent index : Int) (name : String) :
    List (String × Int) → Except TreeError Builder
  | []               => return b
  | (w, line) :: ws => do
    let c ← b.tree.node index
    let b ← do
      if c.aliases.contains w then pure (b.report line (.repeatedName w name))
      else
        match ← b.tree.findChild (← b.tree.node parent) w with
        | some sibling =>
          if sibling.index ≠ index then pure (b.report line (.takenName w name sibling.name))
          else pure (b.addName index w)
        | none => pure (b.addName index w)
    claimNames b parent index name ws

def place (b : Builder) (p : PendingCommand) (parent : Command) (name function : String) :
    Except TreeError Builder := do
  if (← b.tree.findChild parent name).isSome then
    let path ← b.tree.path parent
    return b.report p.line (.repeatedCommand (" ".intercalate (path ++ [name])))
  else
    let (tree, index) ← b.tree.addChild parent.index {
      index := 0
      name := name
      help := p.help
      params := p.params
      func := some function
      before := p.before
      after := p.after
      line := p.line
    }
    let b ← claimNames { b with tree } parent.index index name p.aliases
    let (params, ds) := bindEnv p.env (← b.tree.node index).params
    return { b with tree := b.tree.modify index.toNat ({ · with params }) }.reportAll ds

def onFunction (b : Builder) (d : Directive) : Except TreeError Builder := do
  let root ← b.tree.root
  match b.scope with
  | .command p =>
    let b := { b with scope := .closed }
    let parts := (Text.splitOnDouble ':' d.text.toList).map String.ofList
    if parts.contains "" then return b.report d.line (.malformedFunction d.text)
    else
      match ← descend b.tree root [] parts.dropLast with
      | .error missing => return b.report d.line (.unknownParent ("::".intercalate missing) d.text)
      | .ok parent     => b.place p parent (parts.getLastD "") d.text
  | _ =>
    if d.text = "main" ∧ root.func = none then return b.modifyRoot ({ · with func := some d.text })
    else return b

def feed (b : Builder) (d : Directive) : Except TreeError Builder :=
  match d.kind with
  | .describe   => b.onDescribe d
  | .version    => return b.onMetadata d
  | .author     => return b.onMetadata d
  | .command    => return b.onCommand d
  | .aliases    => return b.onAliases d
  | .option     => return b.onParam d .option
  | .flag       => return b.onParam d .flag
  | .positional => return b.onParam d .positional
  | .env        => return b.onEnv d
  | .before     => b.onBefore d
  | .after      => b.onAfter d
  | .function   => b.onFunction d

def finish (b : Builder) : Except TreeError (Tree × List Diagnostic) := do
  let b := match b.scope with
    | .command p => b.report p.line .missingFunction
    | _          => b
  let (params, ds) := bindEnv b.headerEnv (← b.tree.root).params
  let b := (b.modifyRoot ({ · with params })).reportAll ds
  return (b.tree, b.diagnostics)

end Builder

def Tree.ofDirectives (ds : List Directive) : Except TreeError (Tree × List Diagnostic) := do
  (← ds.foldlM Builder.feed {}).finish

end ShellArgs
