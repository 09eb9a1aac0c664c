import ShellArgs.Json.Printer
import ShellArgs.Record

namespace ShellArgs

structure CompileSettings where
  prog : RawText := ({} : Options).prog
  stem : String := ({} : Options).stem
  addHelp : Bool := ({} : Options).addHelp
  addVersion : Bool := ({} : Options).addVersion
deriving DecidableEq, Repr

namespace CompileSettings

-- Each script has a name of its own.
def options (c : CompileSettings) (prog : String) : Options where
  prog := prog
  stem := c.stem
  addHelp := c.addHelp
  addVersion := c.addVersion

def toJson (c : CompileSettings) : Json :=
  .obj [
    ("prog", .raw c.prog),
    ("prefix", .str c.stem),
    ("add_help", .bool c.addHelp),
    ("add_version", .bool c.addVersion)]

def check : Json → Checked CompileSettings :=
  checkOptions mk ({} : CompileSettings).prog Json.checkRawText

end CompileSettings

-- `hookTimeout` is the number of seconds that a function of a script may take to compute
-- candidates.
structure Settings where
  compile : CompileSettings := {}
  hookTimeout : Binary64 := .ofInt 5
  format : RawText := "auto"
deriving DecidableEq, Repr

namespace Settings

open Json (checkRawText)

def toJson (s : Settings) : Json :=
  .obj [
    ("compile", s.compile.toJson),
    ("completion", .obj [("hook_timeout", .float s.hookTimeout)]),
    ("output", .obj [("format", .raw s.format)])]

def checkTimeout (v : Json) : Checked Binary64 :=
  .ofOption (v.float?.filter (·.isPositive))

def checkSection {α : Type} (name : String) (default : α) (f : Json → Checked α) (v : Json) :
    Checked α :=
  match v.fields? with
  | none    => .refuse
  | some fs => Json.optional fs name default f

def check (v : Json) : Checked Settings :=
  match v.fields? with
  | none    => .refuse
  | some fs =>
    let default : Settings := {}
    Settings.mk
      <$> Json.optional fs "compile" default.compile CompileSettings.check
      <*> Json.optional fs "completion" default.hookTimeout
        (checkSection "hook_timeout" default.hookTimeout checkTimeout)
      <*> Json.optional fs "output" default.format (checkSection "format" default.format checkRawText)

def stored (s : Settings) : String :=
  s.toJson.indented .ascii ++ "\n"

end Settings

end ShellArgs
