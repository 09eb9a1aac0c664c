import ShellArgs.Ordered
import ShellArgs.Param.Basic

namespace ShellArgs

-- The root command stands for the script itself and has no name. `children` leads from the names of
-- the subcommands to their places in a tree, in the order of their declaration.
structure Command where
  index : Int
  name : String := ""
  aliases : List String := []
  help : String := ""
  params : List Param := []
  children : Ordered Int := []
  parent : Option Int := none
  func : Option String := none
  before : Option String := none
  after : Option String := none
  version : Option String := none
  author : Option String := none
  line : Int := 0
deriving DecidableEq, Repr

namespace Command

def isRoot (c : Command) : Bool :=
  c.parent.isNone

def options (c : Command) : List Param :=
  c.params.filter (!·.isPositional)

def positionals (c : Command) : List Param :=
  c.params.filter (·.isPositional)

def addParam (c : Command) (p : Param) : Command :=
  { c with params := p.insert c.params }

def findParam? (c : Command) (name : String) : Option Param :=
  c.params.find? (·.answersTo name)

def findOption? (c : Command) (form : String) : Option Param :=
  c.options.find? (·.forms.contains form)

def callNames (c : Command) : List String :=
  c.name :: c.aliases

def summary (c : Command) : String :=
  String.ofList (c.help.toList.takeWhile (· != '\n'))

end Command

end ShellArgs
