namespace ShellArgs

-- `prog` is the name of the script in its usage texts, `stem` the start of all variables
-- that receive values.
structure Options where
  prog : String := "script"
  stem : String := "argsh"
  addHelp : Bool := true
  addVersion : Bool := true
deriving DecidableEq, Repr

def version : String := "0.3.0"

end ShellArgs
