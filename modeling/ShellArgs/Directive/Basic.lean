namespace ShellArgs

-- All kinds but `function` are tags in comments. `function` is the line on which a shell
-- function is defined.
inductive DirectiveKind where
  | describe
  | version
  | author
  | command
  | aliases
  | option
  | flag
  | positional
  | env
  | before
  | after
  | function
deriving DecidableEq, Repr

-- `text` is what follows the tag, or the name of the function.
structure Directive where
  kind : DirectiveKind
  text : String
  line : Int
deriving DecidableEq, Repr

namespace DirectiveKind

def name : DirectiveKind → String
  | describe   => "describe"
  | version    => "version"
  | author     => "author"
  | command    => "cmd"
  | aliases    => "alias"
  | option     => "option"
  | flag       => "flag"
  | positional => "arg"
  | env        => "env"
  | before     => "before"
  | after      => "after"
  | function   => "function"

def all : List DirectiveKind :=
  [describe, version, author, command, aliases, option, flag, positional, env, before, after,
   function]

def ofName? (s : String) : Option DirectiveKind :=
  all.find? (·.name == s)

theorem ofName?_name (k : DirectiveKind) : ofName? k.name = some k := by
  cases k <;> decide

def ofTag? (s : String) : Option DirectiveKind :=
  (all.filter (· ≠ function)).find? (·.name == s)

def isContinued : DirectiveKind → Bool
  | describe | command | option | flag | positional => true
  | _ => false

def needsText : DirectiveKind → Bool
  | aliases | option | flag | positional | env | before | after => true
  | _ => false

end DirectiveKind

end ShellArgs
