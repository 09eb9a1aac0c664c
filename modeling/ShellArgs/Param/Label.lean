import ShellArgs.Param.Basic

namespace ShellArgs.Param

def upperName (p : Param) (replaced : List Char) : String :=
  String.ofList ((Text.upper p.name.toList).map fun c => if replaced.contains c then '_' else c)

def placeholder (p : Param) : String :=
  match p.valueNames with
  | [] => "<" ++ p.upperName ['-'] ++ ">"
  | ns => " ".intercalate (ns.map fun n => "<" ++ n ++ ">")

def primaryForm (p : Param) : String :=
  p.forms.headD p.name

def valueLabel (p : Param) : String :=
  p.valueNames.headD (p.upperName ['-', '.'])

def label (p : Param) : String :=
  match p.kind with
  | .positional => "<" ++ p.valueLabel ++ ">"
  | .flag       => p.primaryForm
  | .option     => p.primaryForm ++ " " ++ p.placeholder

def synopsis (p : Param) : String :=
  let token := match p.kind with
    | .positional => if p.required then "<" ++ p.valueLabel ++ ">" else "[" ++ p.valueLabel ++ "]"
    | _           => p.label
  if p.multiple then token ++ "..." else token

end ShellArgs.Param
