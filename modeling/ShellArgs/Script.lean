import ShellArgs.Routine.Parse
import ShellArgs.Tree.Validation

namespace ShellArgs

def Routine.preamble : List String := [
  "",
  "_argsh_errors=()",
  "",
  "_argsh_die() \x7b",
  "    printf 'error: %s\\n' \"$1\" >&2",
  "    exit 1",
  "\x7d",
  "",
  "_argsh_error() \x7b",
  "    _argsh_errors+=(\"$1\")",
  "\x7d",
  "",
  "_argsh_check_errors() \x7b",
  "    if [ \"$\x7b#_argsh_errors[@]\x7d\" -gt 0 ]; then",
  "        printf 'error: %s\\n' \"$\x7b_argsh_errors[@]\x7d\" >&2",
  "        if [ -n \"$1\" ]; then",
  "            printf \"\\nFor more information, try '%s --help'.\\n\" \"$1\" >&2",
  "        fi",
  "        exit 1",
  "    fi",
  "\x7d",
  "",
  "_argsh_need_values() \x7b",
  "    local form=\"$1\" count=\"$2\" what=\"a value\" i value",
  "    shift 2",
  "    if [ \"$count\" -gt 1 ]; then",
  "        what=\"$count values\"",
  "    fi",
  "    if [ \"$#\" -lt \"$count\" ]; then",
  "        _argsh_die \"option '$form' requires $what\"",
  "    fi",
  "    for ((i = 1; i <= count; i++)); do",
  "        value=\"$\x7b!i\x7d\"",
  "        case \"$value\" in",
  "        -?*)",
  "            _argsh_die \"option '$form' requires $what, got '$value'\"",
  "            ;;",
  "        esac",
  "    done",
  "\x7d",
  "",
  "_argsh_check_choice() \x7b",
  "    local label=\"$1\" value=\"$2\" item allowed=\"\"",
  "    shift 2",
  "    for item in \"$@\"; do",
  "        if [ \"$item\" = \"$value\" ]; then",
  "            return 0",
  "        fi",
  "        allowed=\"$\x7ballowed:+$allowed, \x7d$item\"",
  "    done",
  "    _argsh_error \"invalid value '$value' for '$label' [possible values: $allowed]\"",
  "\x7d",
  "",
  "_argsh_check_fn_choice() \x7b",
  "    local label=\"$1\" value=\"$2\" item allowed=\"\"",
  "    while IFS= read -r item; do",
  "        if [ \"$item\" = \"$value\" ]; then",
  "            return 0",
  "        fi",
  "        allowed=\"$\x7ballowed:+$allowed, \x7d$item\"",
  "    done < <(\"$3\")",
  "    _argsh_error \"invalid value '$value' for '$label' [possible values: $allowed]\"",
  "\x7d",
  "",
  "_argsh_check_number() \x7b",
  "    local pattern='^-?[0-9]+(\\.[0-9]+)?$'",
  "    if ! [[ $2 =~ $pattern ]]; then",
  "        _argsh_error \"invalid value '$2' for '$1': expected a number\"",
  "    fi",
  "\x7d"]

-- `hooks` are the functions that the script runs when it is asked for candidates.
structure Script where
  prog : String
  routines : List Shell.FunctionDef
  hooks : List String
deriving DecidableEq, Repr

namespace Script

open Shell

def header (prog : String) : List String := [
  "# Generated by argsh " ++ version ++ " for " ++ prog ++ ". Do not edit by hand;",
  "# regenerate with \x60argsh compile\x60 or \x60argsh build\x60 instead.",
  "# shellcheck disable=SC2034"]

def hookDispatch (hooks : List String) : List Line :=
  if hooks.isEmpty then []
  else
    conditional ("[ -n " ++ expandQuoted "ARGSH_HOOK:-" ++ " ]")
      ([line ("case " ++ doubleQuoted "$ARGSH_HOOK" ++ " in"),
        line ("|".intercalate (hooks.map quote) ++ ")")] ++
        indent
          [line (doubleQuoted "$ARGSH_HOOK" ++ " " ++ doubleQuoted "$@"), line "exit", armEnd] ++
        [line "esac", line "_argsh_die \"unknown completion hook '$ARGSH_HOOK'\""])

def mainRoutine (hooks : List String) : FunctionDef where
  name := "_argsh_main"
  body := Shell.written (indent
    (hookDispatch hooks ++ [line (Routine.parseName 0 ++ " " ++ doubleQuoted "$@")]))

def written (s : Script) : String :=
  "\n".intercalate
    (header s.prog ++ Routine.preamble ++
      s.routines.flatMap (fun f => ["", f.written]) ++
      ["", (mainRoutine s.hooks).written, "", "_argsh_main \"$@\"", ""])

end Script

namespace Tree

def hooks (t : Tree) : Except TreeError (List String) := do
  return ((← t.walk).flatMap fun c => c.params.filterMap fun p => nonempty? p.choicesFn).eraseDups

def script (t : Tree) (o : Options) : Except TreeError Script := do
  let routines ← (← t.walk).mapM fun c => do
    return [← Routine.parseRoutine t c o, ← Routine.usageRoutine t c o]
  return { prog := o.prog, routines := routines.flatten, hooks := ← t.hooks }

end Tree

inductive GenerationError where
  | broken (e : TreeError)
  | invalid (first : Diagnostic)
deriving DecidableEq, Repr

def GenerationError.message : GenerationError → String
  | broken (.noNode i) => "no command has index " ++ toString i
  | broken .noForm     => "no form to show"
  | broken .noRow      => "no row to show"
  | invalid first      =>
    "refusing to generate code for an invalid command tree: " ++ first.message

def Tree.generate (t : Tree) (o : Options) : Except GenerationError String :=
  match t.validate with
  | .error e => .error (.broken e)
  | .ok ds   =>
    match Diagnostic.errors ds with
    | d :: _ => .error (.invalid d)
    | []     =>
      match t.script o with
      | .error e => .error (.broken e)
      | .ok s    => .ok s.written

end ShellArgs
