import ShellArgs.Diagnostic
import ShellArgs.Json.Typed
import ShellArgs.Options
import ShellArgs.Tree.Basic

-- Parameters, commands, diagnostics and options as JSON records. All of them come of scripts, which
-- are Unicode texts.

namespace ShellArgs

open Json (checkText checkBool checkInt listOf orNull)

def Param.toJson (p : Param) : Json :=
  .obj [
    ("name", .str p.name),
    ("kind", .str p.kind.name),
    ("short", .optStr p.short),
    ("long", .optStr p.long),
    ("required", .bool p.required),
    ("multiple", .bool p.multiple),
    ("default", .optStr p.default),
    ("default_fn", .optStr p.defaultFn),
    ("choices", .strs p.choices),
    ("choices_fn", .optStr p.choicesFn),
    ("validate_choices", .bool p.validateChoices),
    ("value_names", .strs p.valueNames),
    ("env_var", .optStr p.envVar),
    ("help", .str p.help),
    ("line", .int p.line)]

def Param.check (v : Json) : Checked Param :=
  match v.fields? with
  | none    => .refuse
  | some fs =>
    let optText name := Json.optional fs name none (orNull checkText)
    Param.mk
      <$> Json.required fs "name" checkText
      <*> Json.required fs "kind" (fun v => .ofOption (v.text?.bind ParamKind.ofName?))
      <*> optText "short"
      <*> optText "long"
      <*> Json.optional fs "required" false checkBool
      <*> Json.optional fs "multiple" false checkBool
      <*> optText "default"
      <*> optText "default_fn"
      <*> Json.optional fs "choices" [] (listOf checkText)
      <*> optText "choices_fn"
      <*> Json.optional fs "validate_choices" true checkBool
      <*> Json.optional fs "value_names" [] (listOf checkText)
      <*> optText "env_var"
      <*> Json.optional fs "help" "" checkText
      <*> Json.optional fs "line" 0 checkInt

-- `children` is how the table of children is written.
def Command.toJson (c : Command) (children : Json) : Json :=
  .obj [
    ("index", .int c.index),
    ("name", .str c.name),
    ("aliases", .strs c.aliases),
    ("help", .str c.help),
    ("params", .arr (c.params.map Param.toJson)),
    ("children", children),
    ("parent", match c.parent with
      | some p => .int p
      | none   => .null),
    ("func", .optStr c.func),
    ("before", .optStr c.before),
    ("after", .optStr c.after),
    ("version", .optStr c.version),
    ("author", .optStr c.author),
    ("line", .int c.line)]

def Command.childrenObject (c : Command) : Json :=
  .obj (c.children.map fun (n, i) => (n, .int i))

def Tree.toJson (t : Tree) : Json :=
  .obj [("nodes", .arr (t.nodes.map fun c => c.toJson c.childrenObject))]

def Command.checkChildren (v : Json) : Checked (Ordered Int) :=
  match v.fields? with
  | none    => .refuse
  | some fs => .sequence (fs.map fun (n, v) => ((n, ·) <$> checkInt v).within n)

def Command.check (v : Json) : Checked Command :=
  match v.fields? with
  | none    => .refuse
  | some fs =>
    let optText name := Json.optional fs name none (orNull checkText)
    Command.mk
      <$> Json.required fs "index" checkInt
      <*> Json.optional fs "name" "" checkText
      <*> Json.optional fs "aliases" [] (listOf checkText)
      <*> Json.optional fs "help" "" checkText
      <*> Json.optional fs "params" [] (listOf Param.check)
      <*> Json.optional fs "children" [] Command.checkChildren
      <*> Json.optional fs "parent" none (orNull checkInt)
      <*> optText "func"
      <*> optText "before"
      <*> optText "after"
      <*> optText "version"
      <*> optText "author"
      <*> Json.optional fs "line" 0 checkInt

def Diagnostic.check (v : Json) : Checked Diagnostic :=
  match v.fields? with
  | none    => .refuse
  | some fs =>
    Diagnostic.mk
      <$> Json.required fs "line" checkInt
      <*> Json.required fs "message" checkText
      <*> Json.optional fs "severity" .error (fun v => .ofOption (v.text?.bind Severity.ofName?))
      <*> Json.required fs "stage" (fun v => .ofOption (v.text?.bind Stage.ofName?))
      <*> Json.optional fs "column" none (orNull checkInt)

def checkStem (v : Json) : Checked String :=
  .ofOption (v.text?.filter fun s => Shell.isName s.toList)

-- `f` reads the name of the script.
def checkOptions {α τ : Type} (make : τ → String → Bool → Bool → α) (prog : τ)
    (f : Json → Checked τ) (v : Json) : Checked α :=
  match v.fields? with
  | none    => .refuse
  | some fs =>
    let default : Options := {}
    make
      <$> Json.optional fs "prog" prog f
      <*> Json.optional fs "prefix" default.stem checkStem
      <*> Json.optional fs "add_help" default.addHelp checkBool
      <*> Json.optional fs "add_version" default.addVersion checkBool

def Options.check : Json → Checked Options :=
  checkOptions Options.mk "script" checkText

end ShellArgs
