import ShellArgs.Routine.Arm

namespace ShellArgs.Routine

open Shell

def unsetTest (var : String) : String :=
  "[ -z " ++ expandQuoted (var ++ "+x") ++ " ]"

def setTest (var : String) : String :=
  "[ -n " ++ expandQuoted (var ++ "+x") ++ " ]"

def assignment (p : Param) (stem value : String) : Assignment where
  target := p.varName stem
  append := false
  value := if p.isArray then .array [value] else .scalar value

inductive Share where
  | one (index : Nat)
  | allFrom (index : Nat)
deriving DecidableEq, Repr

namespace Share

def covers : Share → Nat → Bool
  | one i,     n => n == i
  | allFrom i, n => i ≤ n

def value : Share → Assigned
  | one i     => .scalar (expandQuoted (wordsVar ++ "[" ++ toString i ++ "]"))
  | allFrom i => .array [expandQuoted (wordsVar ++ "[@]:" ++ toString i)]

end Share

def share (p : Param) (place : Nat) : Share :=
  if p.multiple then .allFrom place else .one place

def moreWordsTest (n : Nat) : String :=
  "[ " ++ wordCount ++ " -gt " ++ toString n ++ " ]"

def positionalBinding (p : Param) (place : Nat) (stem : String) : List Line :=
  conditional (moreWordsTest place) [assignLine (p.varName stem) (share p place).value]

-- The condition under which the variable counts, and the value that it gives. For a flag it counts if
-- it means true.
def fromEnv? (p : Param) (stem : String) : Option (String × Assignment) :=
  (nonempty? p.envVar).map fun env =>
    if p.isFlag then
      ("[ -n " ++ expandQuoted (env ++ ":-") ++ " ] && [ " ++ expandQuoted env ++ " != 0 ] && [ " ++
        expandQuoted env ++ " != false ]", assignment p stem "1")
    else (setTest env, assignment p stem (expandQuoted env))

-- A function comes before a text.
def fromDefault? (p : Param) (stem : String) : Option Assignment :=
  match nonempty? p.defaultFn, p.default with
  | some fn, _      => some (assignment p stem (doubleQuoted ("$(" ++ fn ++ ")")))
  | none,    some v => some (assignment p stem (quote v))
  | none,    none   => none

def fallback (p : Param) (stem : String) : List Line :=
  let unset := unsetTest (p.varName stem)
  match fromEnv? p stem, fromDefault? p stem with
  | some (test, env), some value =>
    conditional unset ([line ("if " ++ test ++ "; then")] ++ indent [(Statement.assign env).line] ++
      [line "else"] ++ indent [(Statement.assign value).line] ++ [line "fi"])
  | some (test, env), none => conditional (unset ++ " && " ++ test) [(Statement.assign env).line]
  | none, some value       => conditional unset [(Statement.assign value).line]
  | none, none             => []

def requiredCheck (p : Param) (stem : String) : List Line :=
  if p.required then
    let what := if p.isPositional then "argument" else "option"
    [line (setTest (p.varName stem) ++ " || _argsh_error " ++
      quote ("missing required " ++ what ++ " '" ++ p.label ++ "'"))]
  else []

-- The value is in `valueVar`.
def checkCommands (p : Param) : List String :=
  let label := quote p.label
  let value := doubleQuoted ("$" ++ valueVar)
  let choices :=
    if !p.choices.isEmpty then
      ["_argsh_check_choice " ++ label ++ " " ++ value ++ " " ++
        " ".intercalate (p.choices.map quote)]
    else
      match nonempty? p.choicesFn, p.validateChoices with
      | some fn, true => ["_argsh_check_fn_choice " ++ label ++ " " ++ value ++ " " ++ fn]
      | _,       _    => []
  choices ++
    if p.valueHint = .number then ["_argsh_check_number " ++ label ++ " " ++ value] else []

def valueChecks (p : Param) (stem : String) : List Line :=
  let var := p.varName stem
  let checks := (checkCommands p).map line
  if p.isFlag || checks.isEmpty then []
  else if p.isArray then
    [(Statement.overArray valueVar var).line] ++ indent checks ++ [line "done"]
  else
    conditional (setTest var)
      (assignLine valueVar (.scalar (doubleQuoted ("$" ++ var))) :: checks)

def settle (p : Param) (stem : String) : List Line :=
  fallback p stem ++ requiredCheck p stem ++ valueChecks p stem

end ShellArgs.Routine
