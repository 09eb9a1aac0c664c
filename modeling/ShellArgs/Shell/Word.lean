import ShellArgs.Text.Blank

namespace ShellArgs.Shell

def isNameStart (c : Char) : Bool :=
  c.isAlpha || c == '_'

def isNameChar (c : Char) : Bool :=
  c.isAlphanum || c == '_'

def isName : List Char → Bool
  | []     => false
  | c :: s => isNameStart c && s.all isNameChar

-- Characters with a meaning of their own in the shell. Neither they nor blanks are part of
-- a function name.
def specialChars : List Char :=
  ['"', '\'', '\x60', '(', ')', '[', ']', '\x7b', '\x7d', '<', '>', '$', '&', '\\', ';', '|']

def isFunctionChar (c : Char) : Bool :=
  !Text.isBlank c && !specialChars.contains c

def isFunctionName (s : List Char) : Bool :=
  !s.isEmpty && s.all isFunctionChar

def nearestName (s : String) : String :=
  String.ofList (s.toList.map fun c => if isNameChar c then c else '_')

def isPlainChar (c : Char) : Bool :=
  isNameChar c || ['@', '%', '+', '=', ':', ',', '.', '/', '-'].contains c

-- A single quote is written between double quotes, outside of the single quotes.
def quoteChar (c : Char) : List Char :=
  if c = '\'' then ['\'', '"', '\'', '"', '\''] else [c]

def quote (s : String) : String :=
  if s.toList.isEmpty then "''"
  else if s.toList.all isPlainChar then s
  else String.ofList ('\'' :: s.toList.flatMap quoteChar ++ ['\''])

theorem quote_of_plain {s : String} (h : s.toList.isEmpty = false) (hp : s.toList.all isPlainChar) :
    quote s = s := by
  simp [quote, h, hp]

end ShellArgs.Shell
