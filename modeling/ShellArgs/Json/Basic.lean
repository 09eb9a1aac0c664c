import ShellArgs.Decimal.Binary
import ShellArgs.Ordered
import ShellArgs.Text.Raw

namespace ShellArgs

inductive Json where
  | null
  | bool (b : Bool)
  | int (n : Int)
  | float (x : Binary64)
  | str (s : String)
  | unpaired (t : Unpaired)
  | arr (items : List Json)
  | obj (fields : List (String × Json))
deriving Inhabited

namespace Json

def field? : Json → String → Option Json
  | .obj fs, name => Ordered.get? fs name
  | _,       _    => none

def raw : RawText → Json
  | .unicode s  => .str s
  | .unpaired t => .unpaired t

def optStr : Option String → Json
  | some s => .str s
  | none   => .null

def strs (ss : List String) : Json :=
  .arr (ss.map .str)

def nat (n : Nat) : Json :=
  .int n

end Json

end ShellArgs
