import ShellArgs.Json.Overlay
import ShellArgs.Json.Printer
import ShellArgs.Json.Reader
import ShellArgs.Settings.Basic

-- Settings come in layers: the defaults, the user's settings, those of a project, the
-- environment and the command line. Each layer overrides the ones before it.

namespace ShellArgs.Settings

structure Override where
  category : String
  name : String
  value : Json

inductive Source where
  | absent
  | noText
  | text (s : String)
deriving DecidableEq, Repr

inductive LayerError where
  | badUserText
  | badUserSettings (fields : List String)
  | badProjectText
  | projectNoObject
  -- A section that is to be overridden is something else than an object.
  | noSection (category : String)
  | badSettings (fields : List String)
deriving DecidableEq, Repr

def LayerError.message (user project : String) : LayerError → String
  | badUserText        => "Invalid global config at " ++ user ++ ": not JSON"
  | badUserSettings fs => "Invalid global config at " ++ user ++ ": " ++ listed fs
  | badProjectText     => "Invalid project config at " ++ project ++ ": not JSON"
  | projectNoObject    => "Invalid project config at " ++ project ++ ": expected a JSON object"
  | noSection category => "Invalid configuration: " ++ listed [category]
  | badSettings fs     => "Invalid configuration: " ++ listed fs
where
  listed (fields : List String) : String := "invalid " ++ ", ".intercalate fields

def trueWords : List String := ["1", "true", "yes", "on"]

def isTrueWord (s : String) : Bool :=
  trueWords.contains (Json.lowered s)

-- Empty variables count as unset.
def setVar? (vars : Ordered RawText) (name : String) : Option RawText :=
  (vars.get? name).filter (· ≠ "")

def ofEnvironment (vars : Ordered RawText) : List Override :=
  [("ARGSH_PREFIX", fun t => ⟨"compile", "prefix", .raw t⟩),
   ("ARGSH_NO_HELP", fun t => ⟨"compile", "add_help", .bool !t.unicode?.any isTrueWord⟩),
   ("ARGSH_HOOK_TIMEOUT", fun t => ⟨"completion", "hook_timeout", .raw t⟩)].filterMap
    fun ((name, override) : String × (RawText → Override)) => (setVar? vars name).map override

def ofFlags (stem : Option RawText) (noHelp : Bool) (format : Option RawText) : List Override :=
  (stem.map fun t => ⟨"compile", "prefix", .raw t⟩).toList ++
    (if noHelp then [⟨"compile", "add_help", .bool false⟩] else []) ++
    (format.map fun t => ⟨"output", "format", .raw t⟩).toList

instance : Coe (Ordered String) (Ordered RawText) :=
  ⟨List.map fun (name, s) => (name, s)⟩

instance : Coe (Option String) (Option RawText) :=
  ⟨Option.map .unicode⟩

def Override.apply (settings : Ordered Json) (o : Override) : Except LayerError (Ordered Json) :=
  match settings.get? o.category with
  | some (.obj fs) => .ok (settings.put o.category (.obj (Ordered.put fs o.name o.value)))
  | _              => .error (.noSection o.category)

def Source.json? : Source → Option Json
  | text s => Json.parse? s
  | _      => none

def ofUser (source : Source) : Except LayerError Settings :=
  if source = .absent then .ok {}
  else
    match source.json? with
    | none   => .error .badUserText
    | some v =>
      match (check v).toExcept with
      | .ok settings => .ok settings
      | .error fs    => .error (.badUserSettings fs)

def ofProject (source : Source) : Except LayerError (Ordered Json) :=
  if source = .absent then .ok []
  else
    match source.json? with
    | none           => .error .badProjectText
    | some (.obj fs) => .ok fs
    | some _         => .error .projectNoObject

def resolve (user project : Source) (overrides : List Override) : Except LayerError Settings := do
  let user ← ofUser user
  let project ← ofProject project
  let merged := Json.overlay (user.toJson.fields?.getD []) project
  let merged ← overrides.foldlM Override.apply merged
  match (check (.obj merged)).toExcept with
  | .ok settings => return settings
  | .error fs    => throw (.badSettings fs)

end ShellArgs.Settings
