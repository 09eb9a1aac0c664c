import ShellArgs.Descriptor.Grammar
import ShellArgs.Proofs.Descriptor.Parsing

-- Descriptors as they are meant: what they say about a parameter, and which of the ways that
-- there are to write it is taken. Where a text could be read as something else, another way
-- has to be taken. A help text with a dollar sign first, for one, can follow a variable or
-- a form feed (`Ending.exists_apart`).

namespace ShellArgs.Descriptor

-- A nonempty text of certain characters.
structure Word (p : Char → Bool) where
  chars : List Char
  all   : ∀ c ∈ chars, p c
  ne    : chars ≠ []

-- A character that is written if something holds.
def mark (c : Char) (b : Bool) : List Char :=
  if b then [c] else []

inductive Quote where
  | single
  | double

def Quote.char : Quote → Char
  | single => '\''
  | double => '"'

-- Any text of one line can stand between quotes.
structure Quoted where
  quote : Quote
  text  : List Char
  line  : '\n' ∉ text

def escape (quote : Char) (s : List Char) : List Char :=
  s.flatMap fun c => if c = quote ∨ c = '\\' then ['\\', c] else [c]

def Quoted.written (q : Quoted) : List Char :=
  q.quote.char :: (escape q.quote.char q.text ++ [q.quote.char])

-- A bare default ends at a blank or a bracket, and does not begin like the other two.
inductive Default where
  | bare (text : List Char) (plain : ∀ c ∈ text, ¬Text.isBlank c ∧ c ≠ '[')
      (start : Opens (· ∉ ['\x60', '\'', '"']) text)
  | quoted (q : Quoted)
  | function (fn : Word Shell.isFunctionChar)

namespace Default

def isBare : Default → Bool
  | bare .. => true
  | _       => false

def written : Default → List Char
  | bare text _ _ => '=' :: text
  | quoted q      => '=' :: q.written
  | function fn   => '=' :: '\x60' :: (fn.chars ++ ['\x60'])

def declare (p : Param) : Default → Param
  | bare text _ _ => { p with default := some (String.ofList text) }
  | quoted q      => { p with default := some (String.ofList q.text) }
  | function fn   => { p with defaultFn := some (String.ofList fn.chars) }

end Default

-- A bare choice ends at a bar or a bracket.
inductive ChoiceText where
  | bare (text : List Char) (plain : ∀ c ∈ text, c ∉ ['|', ']', '\n'])
      (start : Opens (· ∉ ['=', '\x60', '\'', '"']) text)
  | quoted (q : Quoted)

namespace ChoiceText

def text : ChoiceText → List Char
  | bare text _ _ => text
  | quoted q      => q.text

def written : ChoiceText → List Char
  | bare text _ _ => text
  | quoted q      => q.written

-- A choice after others.
def barred (c : ChoiceText) : List Char :=
  '|' :: c.written

end ChoiceText

-- A marked group declares its first choice to be the default.
inductive Choices where
  | texts (marked : Bool) (first : ChoiceText) (more : List ChoiceText)
      (start : marked = false → Rule.startsFunction first.written = false)
  | function (fn : Word Shell.isFunctionChar) (unchecked : Bool)

namespace Choices

def isMarked : Choices → Bool
  | texts marked _ _ _ => marked
  | function ..        => false

def written : Choices → List Char
  | texts marked first more _ =>
    '[' :: (mark '=' marked ++ first.written ++ more.flatMap ChoiceText.barred ++ [']'])
  | function fn unchecked => '[' :: (mark '?' unchecked ++ '\x60' :: fn.chars ++ ['\x60', ']'])

def declare (p : Param) : Choices → Param
  | texts marked first more _ =>
    let p := { p with choices := (first :: more).map (String.ofList ·.text) }
    if marked then { p with default := some (String.ofList first.text), required := false } else p
  | function fn unchecked =>
    { p with choicesFn := some (String.ofList fn.chars), validateChoices := !unchecked }

end Choices

-- A default, choices, or both in either order. Together they set one default at the most.
structure Values where
  default      : Option Default
  choices      : Option Choices
  choicesFirst : Bool
  single       : ∀ c ∈ choices, c.isMarked → default = none

namespace Values

def written (v : Values) : List Char :=
  let default := v.default.elim [] Default.written
  let choices := v.choices.elim [] Choices.written
  if v.choicesFirst then choices ++ default else default ++ choices

def declare (p : Param) (v : Values) : Param :=
  let p := v.default.elim p (Default.declare p)
  v.choices.elim p (Choices.declare p)

-- Whether a default comes last that has no end of its own.
def endsBare (v : Values) : Bool :=
  v.default.any Default.isBare && (v.choicesFirst || v.choices.isNone)

end Values

inductive Marker where
  | none
  | required
  | variadic
  | variadicRequired

namespace Marker

def written : Marker → List Char
  | none             => []
  | required         => ['!']
  | variadic         => ['*']
  | variadicRequired => ['+']

def declare (p : Param) : Marker → Param
  | none             => p
  | required         => { p with required := true }
  | variadic         => { p with multiple := true }
  | variadicRequired => { p with required := true, multiple := true }

end Marker

-- Whether each angle is closed after it is opened, with `depth` angles open before.
def isBalanced (depth : Nat) : List Char → Bool
  | []     => depth == 0
  | c :: s =>
    if c = '<' then isBalanced (depth + 1) s
    else if c = '>' then
      match depth with
      | 0     => false
      | n + 1 => isBalanced n s
    else isBalanced depth s

-- The name of a value, with the spaces before it.
structure ValueName where
  gap      : List Char
  isGap    : ∀ c ∈ gap, isSpace c
  text     : List Char
  balanced : isBalanced 0 text
  line     : '\n' ∉ text

def ValueName.written (n : ValueName) : List Char :=
  n.gap ++ '<' :: n.text ++ ['>']

-- An environment variable, with the spaces before it.
structure Variable where
  gap    : Word isSpace
  name   : List Char
  isName : Shell.isName name

def Variable.written (v : Variable) : List Char :=
  v.gap.chars ++ '$' :: v.name

-- The variable, and a help text after any blanks. Either of them may be missing, but then
-- the help text is not to be taken for a variable.
structure Ending where
  env        : Option Variable
  blanks     : List Char
  areBlanks  : ∀ c ∈ blanks, Text.isBlank c
  help       : List Char
  trimmed    : Text.trim help = help
  apart      : help ≠ [] → blanks ≠ []
  line       : '\n' ∉ blanks ++ help
  noVariable : env = none → ((blanks ++ help).dropWhile isSpace).head? ≠ some '$'

namespace Ending

def written (e : Ending) : List Char :=
  e.env.elim [] Variable.written ++ (e.blanks ++ e.help)

def declare (p : Param) (e : Ending) : Param :=
  let p := e.env.elim p fun v => { p with envVar := some (String.ofList v.name) }
  { p with help := String.ofList e.help }

end Ending

-- What follows the forms of an option or the name of a positional.
structure Body where
  marker : Marker
  values : Values
  names  : List ValueName
  ending : Ending
  apart  : values.endsBare → ∀ n ∈ names.head?, n.gap ≠ []

namespace Body

def written (b : Body) : List Char :=
  b.marker.written ++ (b.values.written ++ (b.names.flatMap ValueName.written ++ b.ending.written))

def declare (p : Param) (b : Body) : Param :=
  let p := b.values.declare (b.marker.declare p)
  b.ending.declare { p with valueNames := b.names.map (String.ofList ·.text) }

-- The help text is not to be taken for the name of a value.
def Closed (b : Body) : Prop :=
  (b.ending.written.dropWhile isSpace).head? ≠ some '<'

end Body

-- A name after one dash or two.
structure LongForm where
  double : Bool
  name   : Word isNameChar
  start  : double = false → name.chars.head? ≠ some '-'

-- What follows the first dash.
def LongForm.rest (l : LongForm) : List Char :=
  mark '-' l.double ++ l.name.chars

def LongForm.written (l : LongForm) : List Char :=
  '-' :: l.rest

def LongForm.param (l : LongForm) (k : ParamKind) (short : Option String) : Param :=
  { name := String.ofList l.name.chars, kind := k, short, long := some (String.ofList l.written) }

-- What a short form alone declares.
def shortParam (k : ParamKind) (c : Char) : Param :=
  { name := String.singleton c, kind := k, short := some (String.ofList ['-', c]) }

-- Characters that can be the only form of an option or a flag.
def isLoneChar : ParamKind → Char → Bool
  | .option => isLoneShortChar
  | _       => isShortChar

-- With a single dash, a name of one character is a short form.
inductive Forms (k : ParamKind) where
  | both (c : Char) (isShort : isShortChar c) (gap : Word isSpace) (long : LongForm)
  | long (long : LongForm) (isLong : long.double = false → 2 ≤ long.name.chars.length)
  | short (c : Char) (isLone : isLoneChar k c)

-- The start of a text that is taken for a long form.
def startsLong : List Char → Bool
  | '-' :: '-' :: s => s.head?.any isNameChar
  | '-' :: s        => s.head?.any isNameChar
  | _               => false

namespace Forms

variable {k : ParamKind}

def written : Forms k → List Char
  | both c _ gap l => '-' :: c :: (gap.chars ++ l.written)
  | long l _       => l.written
  | short c _      => ['-', c]

def param : Forms k → Param
  | both c _ _ l => l.param k (some (String.ofList ['-', c]))
  | long l _     => l.param k none
  | short c _    => shortParam k c

-- What comes after a short form alone is not to be taken for the long form.
def Apart (s : List Char) : Forms k → Prop
  | short .. => startsLong (s.dropWhile isSpace) = false
  | _        => True

end Forms

-- Angles say that the positional is required.
inductive PositionalName where
  | bare (name : Word isNameChar)
  | angled (name : Word isNameChar)
  | bracketed (name : Word isNameChar)

namespace PositionalName

def written : PositionalName → List Char
  | bare n      => n.chars
  | angled n    => '<' :: (n.chars ++ ['>'])
  | bracketed n => '[' :: (n.chars ++ [']'])

def param : PositionalName → Param
  | bare n      => { name := String.ofList n.chars, kind := .positional }
  | angled n    => { name := String.ofList n.chars, kind := .positional, required := true }
  | bracketed n => { name := String.ofList n.chars, kind := .positional }

end PositionalName

-- What follows the forms of a flag.
structure FlagBody where
  repeats : Bool
  ending  : Ending

namespace FlagBody

def written (b : FlagBody) : List Char :=
  mark '*' b.repeats ++ b.ending.written

def declare (p : Param) (b : FlagBody) : Param :=
  b.ending.declare { p with multiple := b.repeats }

end FlagBody

inductive Notation : ParamKind → Type
  | option (forms : Forms .option) (body : Body) (closed : body.Closed)
      (apart : forms.Apart body.written) : Notation .option
  | flag (forms : Forms .flag) (body : FlagBody) (apart : forms.Apart body.written) :
      Notation .flag
  | positional (name : PositionalName) (body : Body) (single : body.names.length ≤ 1)
      (closed : body.names = [] → body.Closed) : Notation .positional

namespace Notation

variable {k : ParamKind}

def written : Notation k → List Char
  | option forms body _ _    => forms.written ++ body.written
  | flag forms body _        => forms.written ++ body.written
  | positional name body _ _ => name.written ++ body.written

-- The parameter that is meant.
def param : Notation k → Param
  | option forms body _ _    => body.declare forms.param
  | flag forms body _        => body.declare forms.param
  | positional name body _ _ => body.declare name.param

end Notation

end ShellArgs.Descriptor
