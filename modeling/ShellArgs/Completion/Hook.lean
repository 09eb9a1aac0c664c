import ShellArgs.Completion.Candidates
import ShellArgs.Decimal.Written
import ShellArgs.Text.Line

-- Functions of a script are called by running the script with the name of the function in
-- its environment, as the value of `ARGSH_HOOK`.

namespace ShellArgs.Completion

inductive ProcessEnd where
  | timedOut
  | notStarted (reason : String)
  | exited (status : Int) (output errors : String)
deriving DecidableEq, Repr

def lastErrorLine? (errors : String) : Option String :=
  (Text.lines (Text.trim errors.toList)).getLast?.map String.ofList

def ProcessEnd.hookAnswer (fn : String) (timeout : Binary64) : ProcessEnd → HookAnswer
  | timedOut => .failed ("hook '" ++ fn ++ "' timed out after " ++ timeout.toShortText ++ "s")
  | notStarted reason => .failed ("cannot run hook '" ++ fn ++ "': " ++ reason)
  | exited status output errors =>
    if status = 0 then
      .lines (((Text.lines output.toList).filter (!·.isEmpty)).map String.ofList)
    else
      let reason := (lastErrorLine? errors).getD ("exit status " ++ toString status)
      .failed ("hook '" ++ fn ++ "' failed: " ++ reason)

end ShellArgs.Completion
