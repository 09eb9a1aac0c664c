import ShellArgs.Diagnostic
import ShellArgs.Directive.Basic
import ShellArgs.Shell.Word
import ShellArgs.Text.Line

namespace ShellArgs.Directive

inductive Problem where
  | missingTag
  | unknownTag (tag : String)
  | missingText (tag : String)
  | malformedAliases (text : String)
  | noFunctionName (tag text : String)
deriving DecidableEq, Repr

def Problem.message : Problem → String
  | missingTag              => "malformed directive: missing tag name after '@'"
  | unknownTag tag          => "unknown directive '@" ++ tag ++ "'"
  | missingText tag         => "'@" ++ tag ++ "' requires an argument"
  | malformedAliases text   => "malformed alias list '" ++ text ++ "'"
  | noFunctionName tag text =>
    "'@" ++ tag ++ "' expects a function name, got '" ++ text ++ "'"

-- A line that starts like a directive: number signs, spaces, and the mark `@` in `column`.
structure Marked where
  column : Nat
  tag : List Char
  rest : List Char

def marked? (line : List Char) : Option Marked :=
  let hashes := line.takeWhile (· == '#')
  let line := line.dropWhile (· == '#')
  let spaces := line.takeWhile isSpace
  match hashes, line.dropWhile isSpace with
  | _ :: _, '@' :: s =>
    some {
      column := hashes.length + spaces.length + 1
      tag := s.takeWhile (!Text.isBlank ·)
      rest := s.dropWhile (!Text.isBlank ·)
    }
  | _, _ => none
where
  isSpace (c : Char) : Bool := c == ' ' || c == '\t'

def comment? (line : List Char) : Option (List Char) :=
  match line with
  | '#' :: _ =>
    match line.dropWhile (· == '#') with
    | ' ' :: s  => some s
    | '\t' :: s => some s
    | s         => some s
  | _ => none

def continuation? (line : List Char) : Option (List Char) :=
  if (marked? line).isSome || "#!".toList.isPrefixOf line then none else comment? line

def continuations : List (List Char) → List (List Char)
  | []      => []
  | l :: ls =>
    match continuation? l with
    | some s => s :: continuations ls
    | none   => []

theorem length_continuations_le (ls : List (List Char)) :
    (continuations ls).length ≤ ls.length := by
  induction ls with
  | nil => simp [continuations]
  | cons l ls hi => unfold continuations; split <;> simp [hi]

def functionKeyword? (line : List Char) : Option (List Char) :=
  let line := Text.trimLeft line
  let keyword := "function".toList
  if keyword.isPrefixOf line then
    let rest := line.drop keyword.length
    let name := (Text.trimLeft rest).takeWhile Shell.isFunctionChar
    if (rest.head?.any Text.isBlank) && !name.isEmpty then some name else none
  else none

def functionParens? (line : List Char) : Option (List Char) :=
  let line := Text.trimLeft line
  let name := line.takeWhile Shell.isFunctionChar
  match name, Text.trimLeft (line.dropWhile Shell.isFunctionChar) with
  | _ :: _, '(' :: s =>
    match Text.trimLeft s with
    | ')' :: _ => some name
    | _        => none
  | _, _ => none

def function? (line : List Char) : Option (List Char) :=
  functionKeyword? line <|> functionParens? line

def isAliasChar (c : Char) : Bool :=
  c.isAlphanum || c == '_' || c == '.' || c == '-'

def isAliasName (s : List Char) : Bool :=
  !s.isEmpty && s.all isAliasChar

def aliasNames (text : String) : List (List Char) :=
  (text.toList.splitOn ',').map Text.trim

def readMarked (m : Marked) : Except Problem (DirectiveKind × String) :=
  let tag := String.ofList m.tag
  let text := String.ofList (Text.trim m.rest)
  if m.tag.isEmpty then .error .missingTag
  else
    match DirectiveKind.ofTag? tag with
    | none      => .error (.unknownTag tag)
    | some kind =>
      if kind.needsText && text.toList.isEmpty then .error (.missingText tag)
      else if kind = .aliases ∧ !(aliasNames text).all isAliasName then
        .error (.malformedAliases text)
      else if (kind = .before ∨ kind = .after) ∧ !Shell.isFunctionName text.toList then
        .error (.noFunctionName tag text)
      else .ok (kind, text)

inductive Event where
  | directive (d : Directive)
  | problem (line column : Nat) (p : Problem)
deriving DecidableEq, Repr

namespace Event

def directive? : Event → Option Directive
  | directive d => some d
  | problem ..  => none

def diagnostic? : Event → Option Diagnostic
  | directive _           => none
  | problem line column p => some {
      line := line
      message := p.message
      severity := .error
      stage := .lex
      column := some column
    }

end Event

def continued (text : String) (lines : List (List Char)) : String :=
  let more := Text.trim (['\n'].intercalate lines)
  if more.isEmpty then text else text ++ "\n" ++ String.ofList more

-- The first `absorbed` of the lines belong to an earlier directive.
def events (line absorbed : Nat) : List (List Char) → List Event
  | []      => []
  | l :: ls =>
    match absorbed with
    | n + 1 => events (line + 1) n ls
    | 0     =>
      match marked? l with
      | some m =>
        match readMarked m with
        | .error p          => .problem line m.column p :: events (line + 1) 0 ls
        | .ok (kind, text)  =>
          if kind.isContinued then
            let more := continuations ls
            .directive ⟨kind, continued text more, line⟩ :: events (line + 1) more.length ls
          else .directive ⟨kind, text, line⟩ :: events (line + 1) 0 ls
      | none =>
        match function? l with
        | some name => .directive ⟨.function, String.ofList name, line⟩ :: events (line + 1) 0 ls
        | none      => events (line + 1) 0 ls

def eventsOf (script : String) : List Event :=
  events 1 0 (Text.lines script.toList)

def lex (script : String) : List Directive × List Diagnostic :=
  let es := eventsOf script
  (es.filterMap Event.directive?, es.filterMap Event.diagnostic?)

end ShellArgs.Directive
