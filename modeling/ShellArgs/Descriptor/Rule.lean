-- Grammar rules that read the start of a text. A rule may try alternatives; what counts for
-- an error report is the furthest place that any of them has reached.

namespace ShellArgs.Descriptor

inductive Expectation where
  | descriptor
  | literal (c : Char)
  | dashes
  | shortChar
  | blankAfterShort
  | singleShort
  | name
  | singleDefault
  | choice
  | closingQuote (quote : Char)
  | functionName
  | closingAngle
  | envName
  | blankAfterEnv
  | blankOrEnd
deriving DecidableEq, Repr

def Expectation.describe : Expectation → String
  | descriptor         => "a parameter descriptor"
  | literal c          => "'" ++ String.singleton c ++ "'"
  | dashes             => "'-' or '--'"
  | shortChar          => "a short option character"
  | blankAfterShort    => "whitespace after the short option"
  | singleShort        => "a single-character short option"
  | name               => "a parameter name"
  | singleDefault      => "a single default value"
  | choice             => "a choice value"
  | closingQuote quote => "closing " ++ String.singleton quote
  | functionName       => "a function name"
  | closingAngle       => "closing '>'"
  | envName            => "an environment variable name"
  | blankAfterEnv      => "whitespace after the environment variable"
  | blankOrEnd         => "whitespace or end of descriptor"

structure Reach where
  rest : List Char
  expected : Expectation
deriving DecidableEq, Repr

-- Of two failures at one place the later one counts.
def Reach.extend (r : Reach) (rest : List Char) (expected : Expectation) : Reach :=
  if rest.length ≤ r.rest.length then ⟨rest, expected⟩ else r

-- Without a result a rule has failed.
def Rule (α : Type) : Type :=
  List Char → Reach → Option (α × List Char) × Reach

namespace Rule

variable {α β : Type}

protected def pure (a : α) : Rule α :=
  fun s r => (some (a, s), r)

protected def bind (x : Rule α) (f : α → Rule β) : Rule β :=
  fun s r =>
    match x s r with
    | (some (a, s), r) => f a s r
    | (none, r)        => (none, r)

instance : Monad Rule where
  pure := Rule.pure
  bind := Rule.bind

theorem bind_apply {x : Rule α} {f : α → Rule β} {s : List Char} {r : Reach} :
    (x >>= f) s r = match x s r with
      | (some (a, s), r) => f a s r
      | (none, r)        => (none, r) :=
  rfl

def fail (e : Expectation) : Rule α :=
  fun s r => (none, r.extend s e)

def orElse (x y : Rule α) : Rule α :=
  fun s r =>
    match x s r with
    | (some v, r) => (some v, r)
    | (none, r)   => y s r

def attempt (x : Rule α) : Rule (Option α) :=
  (some <$> x).orElse (pure none)

def rest : Rule (List Char) :=
  fun s r => (some (s, s), r)

def peek : Rule (Option Char) :=
  fun s r => (some (s.head?, s), r)

def drop (n : Nat) : Rule Unit :=
  fun s r => (some ((), s.drop n), r)

def takeWhile (p : Char → Bool) : Rule (List Char) :=
  fun s r => (some (s.takeWhile p, s.dropWhile p), r)

def eat (c : Char) : Rule Bool :=
  fun s r =>
    match s with
    | d :: s' => if d = c then (some (true, s'), r) else (some (false, s), r)
    | []      => (some (false, s), r)

def expect (c : Char) : Rule Unit := do
  unless ← eat c do
    fail (.literal c)

-- The failure is one at the end of the text.
def ofText (f : List Char → Option (α × List Char)) (e : Expectation) : Rule α :=
  fun s r =>
    match f s with
    | some v => (some v, r)
    | none   => fail e [] r

end Rule

end ShellArgs.Descriptor
