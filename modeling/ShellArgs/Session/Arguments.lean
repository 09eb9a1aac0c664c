import ShellArgs.Text.Cut

namespace ShellArgs

-- An option is known by its long form, which has two dashes.
structure OptionForm where
  long : String
  short : Option Char := none
  takesValue : Bool := false
deriving DecidableEq, Repr

inductive Misuse where
  | unknownOption (form : String)
  | missingValue (form : String)
  | unwantedValue (form : String)
  | missingCommand
  | unknownCommand (name : String)
  | missingArgument (name : String)
  | extraArgument (word : String)
  | noInteger (word : String)
deriving DecidableEq, Repr

def Misuse.message : Misuse → String
  | unknownOption form   => "No such option: " ++ form
  | missingValue form    => "Option '" ++ form ++ "' requires an argument."
  | unwantedValue form   => "Option '" ++ form ++ "' does not take a value."
  | missingCommand       => "Missing command."
  | unknownCommand name  => "No such command '" ++ name ++ "'."
  | missingArgument name => "Missing argument '" ++ name ++ "'."
  | extraArgument word   => "Got unexpected extra argument (" ++ word ++ ")"
  | noInteger word       => "'" ++ word ++ "' is not a valid integer."

-- `given` are the options by their long forms, with their values. `words` is all the rest.
structure Arguments where
  given : List (String × Option String) := []
  words : List String := []
deriving DecidableEq, Repr

namespace Arguments

def has (a : Arguments) (long : String) : Bool :=
  a.given.any (·.1 == long)

def value? (a : Arguments) (long : String) : Option String :=
  (a.given.reverse.lookup long).join

def withValue (f : OptionForm) (attached : Option String) (rest : List String) :
    Except Misuse (List (String × Option String) × List String) :=
  match attached, rest with
  | some v, rest      => .ok ([(f.long, some v)], rest)
  | none,   v :: rest => .ok ([(f.long, some v)], rest)
  | none,   []        => .error (.missingValue f.long)

-- The first form that takes a value takes what is left.
def shortForms (forms : List OptionForm) (rest : List String) :
    List Char → Except Misuse (List (String × Option String) × List String)
  | []      => .ok ([], rest)
  | c :: cs =>
    match forms.find? (·.short == some c) with
    | none   => .error (.unknownOption (String.ofList ['-', c]))
    | some f =>
      if f.takesValue then withValue f (if cs.isEmpty then none else some (String.ofList cs)) rest
      else do
        let (given, rest) ← shortForms forms rest cs
        return ((f.long, none) :: given, rest)

def dashed (forms : List OptionForm) (word : String) (rest : List String) :
    Except Misuse (List (String × Option String) × List String) :=
  let (name, attached) := Text.cut '=' word
  match forms.find? (·.long == name) with
  | some f =>
    if f.takesValue then withValue f attached rest
    else if attached.isSome then .error (.unwantedValue name)
    else .ok ([(name, none)], rest)
  | none =>
    if Text.startsWith word "--" then .error (.unknownOption name)
    else shortForms forms rest (word.toList.drop 1)

theorem length_withValue {f : OptionForm} {attached : Option String} {rest : List String}
    {given : List (String × Option String)} {left : List String}
    (h : withValue f attached rest = .ok (given, left)) : left.length ≤ rest.length := by
  unfold withValue at h
  split at h <;> simp at h <;> obtain ⟨_, rfl⟩ := h <;> simp

theorem length_shortForms {forms : List OptionForm} {rest : List String} {cs : List Char}
    {given : List (String × Option String)} {left : List String}
    (h : shortForms forms rest cs = .ok (given, left)) : left.length ≤ rest.length := by
  induction cs generalizing given with
  | nil => simp [shortForms] at h; simp [h]
  | cons c cs hi =>
    simp only [shortForms] at h
    split at h
    case h_1 => cases h
    case h_2 f _ =>
      split at h
      case isTrue => exact length_withValue h
      case isFalse =>
        cases hs : shortForms forms rest cs with
        | error => simp [hs, bind, Except.bind] at h
        | ok r =>
          simp only [hs, bind, Except.bind, pure, Except.pure] at h
          cases h
          exact hi hs

theorem length_dashed {forms : List OptionForm} {word : String} {rest : List String}
    {given : List (String × Option String)} {left : List String}
    (h : dashed forms word rest = .ok (given, left)) : left.length ≤ rest.length := by
  simp only [dashed] at h
  split at h
  case h_1 =>
    split at h
    case isTrue => exact length_withValue h
    case isFalse =>
      split at h
      case isTrue => cases h
      case isFalse => simp at h; simp [h]
  case h_2 =>
    split at h
    case isTrue => cases h
    case isFalse => exact length_shortForms h

-- Takes the options out of the arguments. Two dashes end the options; if options may not
-- follow words, the first word does too.
def read (forms : List OptionForm) (interspersed : Bool) (args : List String) :
    Except Misuse Arguments :=
  match args with
  | []           => .ok {}
  | word :: rest =>
    if word = "--" then .ok { words := rest }
    else if Text.startsWith word "-" && word ≠ "-" then
      match h : dashed forms word rest with
      | .error e           => .error e
      | .ok (given, left) => do
        have := length_dashed h
        let a ← read forms interspersed left
        return { a with given := given ++ a.given }
    else if interspersed then do
      let a ← read forms interspersed rest
      return { a with words := word :: a.words }
    else .ok { words := word :: rest }
termination_by args.length
decreasing_by
  case _ => simp_wf; omega
  case _ => simp_wf

end Arguments

end ShellArgs
