import ShellArgs.Options
import ShellArgs.Shell.Code

namespace ShellArgs.Completion

open Shell

-- Names of files are completed if there are no candidates.
def completer (name script : String) : FunctionDef where
  name
  body := Shell.written (indent ([
    line "local IFS=$'\\n'",
    line "local candidates=()",
    line ("candidates=($(argsh --quiet complete " ++ quote script ++
      " \"$COMP_CWORD\" -- \"$\x7bCOMP_WORDS[@]\x7d\" 2>/dev/null))"),
    line "if [ \"$\x7b#candidates[@]\x7d\" -eq 0 ]; then"] ++
    indent [line "COMPREPLY=($(compgen -f -- \"$\x7bCOMP_WORDS[COMP_CWORD]\x7d\"))"] ++
    [line "else"] ++
    indent [line "COMPREPLY=(\"$\x7bcandidates[@]\x7d\")"] ++
    [line "fi"]))

def registration (prog script : String) : String :=
  let name := "_argsh_complete_" ++ nearestName prog
  "\n".intercalate [
    "# bash completion for " ++ quote prog ++ ", generated by argsh " ++ version ++ ".",
    "# Source this file from ~/.bashrc or drop it into your bash-completion directory.",
    "",
    (completer name script).written,
    "",
    "complete -F " ++ name ++ " " ++ quote prog,
    ""]

end ShellArgs.Completion
