import ShellArgs.Json.Basic
import ShellArgs.Decimal.Written

namespace ShellArgs.Json

inductive Charset where
  | ascii
  | unicode
deriving DecidableEq

def hex4 (u : Nat) : List Char :=
  let ds := Nat.toDigits 16 u
  '\\' :: 'u' :: (List.replicate (4 - ds.length) '0' ++ ds)

def escape (cs : Charset) (c : Char) : List Char :=
  match c with
  | '"'    => ['\\', '"']
  | '\\'   => ['\\', '\\']
  | '\n'   => ['\\', 'n']
  | '\r'   => ['\\', 'r']
  | '\t'   => ['\\', 't']
  | '\x08' => ['\\', 'b']
  | '\x0c' => ['\\', 'f']
  | c =>
    let n := c.toNat
    if n < 0x20 then hex4 n
    else if n < 0x7F ∨ cs = .unicode then [c]
    else if n < 0x10000 then hex4 n
    else hex4 (0xD800 + (n - 0x10000) / 0x400) ++ hex4 (0xDC00 + (n - 0x10000) % 0x400)

-- No charset has halves in it.
def escapePoint (cs : Charset) : CodePoint → List Char
  | .char c => escape cs c
  | .half n => hex4 (0xD800 + n)

def quoted (cs : Charset) (t : RawText) : String :=
  String.ofList ('"' :: t.points.flatMap (escapePoint cs) ++ ['"'])

def floatText : Binary64 → String
  | .notANumber     => "NaN"
  | .infinite true  => "-Infinity"
  | .infinite false => "Infinity"
  | x               => x.toText

inductive Spacing where
  | compact
  | indented (depth : Nat)

def Spacing.deeper : Spacing → Spacing
  | .compact    => .compact
  | .indented n => .indented (n + 1)

def Spacing.newline : Spacing → String
  | .compact    => ""
  | .indented n => "\n" ++ String.ofList (List.replicate (2 * n) ' ')

def enclosed (sp : Spacing) (opening closing : String) : List String → String
  | []    => opening ++ closing
  | items =>
    opening ++ sp.deeper.newline ++ ("," ++ sp.deeper.newline).intercalate items ++ sp.newline ++
      closing

mutual

def text (cs : Charset) (sp : Spacing) : Json → String
  | .null       => "null"
  | .bool b     => if b then "true" else "false"
  | .int n      => toString n
  | .float x    => floatText x
  | .str s      => quoted cs s
  | .unpaired t => quoted cs (.unpaired t)
  | .arr vs     => enclosed sp "[" "]" (itemTexts cs sp.deeper vs)
  | .obj fs     => enclosed sp "\x7b" "\x7d" (fieldTexts cs sp.deeper fs)

def itemTexts (cs : Charset) (sp : Spacing) : List Json → List String
  | []      => []
  | v :: vs => text cs sp v :: itemTexts cs sp vs

def fieldTexts (cs : Charset) (sp : Spacing) : List (String × Json) → List String
  | []           => []
  | (n, v) :: fs => (quoted cs n ++ ": " ++ text cs sp v) :: fieldTexts cs sp fs

end

def compact (v : Json) : String :=
  v.text .unicode .compact

def indented (cs : Charset) (v : Json) : String :=
  v.text cs (.indented 0)

end ShellArgs.Json
