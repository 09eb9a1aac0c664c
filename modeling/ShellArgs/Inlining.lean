import ShellArgs.Text.Line
import ShellArgs.Text.WordChar

namespace ShellArgs.Inlining

def after? (start : String) (s : List Char) : Option (List Char) :=
  if start.toList.isPrefixOf s then some (s.drop start.toList.length) else none

def afterBlanks? (s : List Char) : Option (List Char) :=
  match s with
  | c :: _ => if Text.isBlank c then some (Text.trimLeft s) else none
  | []     => none

def afterQuote (s : List Char) : List Char :=
  match s with
  | '"' :: t  => t
  | '\'' :: t => t
  | _         => s

def isEvalLine (line : List Char) : Bool :=
  let rest := do
    let s ← after? "eval" (Text.trimLeft line)
    let s ← after? "$(" (afterQuote (← afterBlanks? s))
    let s ← after? "argsh" (Text.trimLeft s)
    after? "compile" (← afterBlanks? s)
  match rest with
  | none          => false
  | some []       => true
  | some (c :: _) => !Text.isWordChar c

def keptLines (source : String) : List (List Char) :=
  let lines := (Text.lines source.toList).filter (!isEvalLine ·)
  (lines.reverse.dropWhile Text.isBlankText).reverse

end ShellArgs.Inlining

namespace ShellArgs

def inlined (source code : String) : String :=
  "\n".intercalate ((Inlining.keptLines source).map String.ofList) ++ "\n\n" ++ code

end ShellArgs
