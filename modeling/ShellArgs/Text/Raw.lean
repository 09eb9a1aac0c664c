-- Texts in which halves of surrogate pairs stand alone. They are no Unicode texts, but there are
-- escapes for them.

namespace ShellArgs

inductive CodePoint where
  | char (c : Char)
  | half (n : Fin 0x800)
deriving DecidableEq, Repr

namespace CodePoint

def char? : CodePoint → Option Char
  | char c => some c
  | half _ => none

-- The first halves of pairs are the high ones.
def isHigh : CodePoint → Bool
  | char _ => false
  | half n => n < 0x400

def isLow : CodePoint → Bool
  | char _ => false
  | half n => 0x400 ≤ n

def hasPair : List CodePoint → Bool
  | p :: q :: ps => p.isHigh && q.isLow || hasPair (q :: ps)
  | _            => false

end CodePoint

-- Two halves that are next to each other in the order of a pair are a character, so that there is
-- one way only to write a text.
structure Unpaired where
  points : List CodePoint
  half : points.any (·.char?.isNone)
  noPair : CodePoint.hasPair points = false
deriving DecidableEq, Repr

inductive RawText where
  | unicode (s : String)
  | unpaired (t : Unpaired)
deriving DecidableEq, Repr

namespace RawText

instance : Coe String RawText :=
  ⟨.unicode⟩

def unicode? : RawText → Option String
  | unicode s  => some s
  | unpaired _ => none

def points : RawText → List CodePoint
  | unicode s  => s.toList.map .char
  | unpaired t => t.points

end RawText

end ShellArgs
