import ShellArgs.Json.Basic

-- Reading JSON. Two notations beyond the standard are read: the numbers `NaN`, `Infinity`
-- and `-Infinity`. In an object with a repeated name the last value counts. A byte order
-- mark is no part of JSON.

namespace ShellArgs.Json

def isSpace (c : Char) : Bool :=
  c == ' ' || c == '\t' || c == '\n' || c == '\r'

def skip (s : List Char) : List Char :=
  s.dropWhile isSpace

def hexValue? (c : Char) : Option Nat :=
  if c.isDigit then some (c.toNat - '0'.toNat)
  else if 'a' ≤ c ∧ c ≤ 'f' then some (c.toNat - 'a'.toNat + 10)
  else if 'A' ≤ c ∧ c ≤ 'F' then some (c.toNat - 'A'.toNat + 10)
  else none

def unit? : List Char → Option (Nat × List Char)
  | a :: b :: c :: d :: s => do
    let a ← hexValue? a
    let b ← hexValue? b
    let c ← hexValue? c
    let d ← hexValue? d
    return (((a * 16 + b) * 16 + c) * 16 + d, s)
  | _ => none

def isHighUnit (u : Nat) : Bool :=
  0xD800 ≤ u && u < 0xDC00

def isLowUnit (u : Nat) : Bool :=
  0xDC00 ≤ u && u < 0xE000

def ofUnit (u : Nat) : CodePoint :=
  if isHighUnit u || isLowUnit u then .half ⟨(u - 0xD800) % 0x800, Nat.mod_lt _ (by decide)⟩
  else .char (.ofNat u)

-- A unit without its partner stays half of a pair.
def escapedUnit? (s : List Char) : Option (CodePoint × List Char) := do
  let (u, s) ← unit? s
  if isHighUnit u then
    match s with
    | '\\' :: 'u' :: r =>
      match unit? r with
      | some (v, r) =>
        if isLowUnit v then
          return (.char (.ofNat (0x10000 + (u - 0xD800) * 0x400 + (v - 0xDC00))), r)
        else return (ofUnit u, s)
      | none => none
    | _ => return (ofUnit u, s)
  else return (ofUnit u, s)

def shortEscape? (c : Char) : Option Char :=
  match c with
  | '"' | '\\' | '/' => some c
  | 'b' => some '\x08'
  | 'f' => some '\x0c'
  | 'n' => some '\n'
  | 'r' => some '\r'
  | 't' => some '\t'
  | _   => none

def stringBody : Nat → List Char → Option (List CodePoint × List Char)
  | 0,     _  => none
  | n + 1, s  =>
    match s with
    | []             => none
    | '"' :: s       => some ([], s)
    | '\\' :: 'u' :: s => do
      let (c, s) ← escapedUnit? s
      let (cs, s) ← stringBody n s
      return (c :: cs, s)
    | '\\' :: c :: s => do
      let c ← shortEscape? c
      let (cs, s) ← stringBody n s
      return (.char c :: cs, s)
    | c :: s => do
      if c.toNat < 0x20 ∨ c = '\\' then none
      else
        let (cs, s) ← stringBody n s
        return (.char c :: cs, s)

def ofPoints (ps : List CodePoint) : Json :=
  if h : ps.any (·.char?.isNone) ∧ CodePoint.hasPair ps = false then .unpaired ⟨ps, h.1, h.2⟩
  else .str (String.ofList (ps.filterMap CodePoint.char?))

-- A string as a name. No known name has the replacement character.
def nameOfPoints (ps : List CodePoint) : String :=
  String.ofList (ps.map (·.char?.getD '\uFFFD'))

def decimalDigits (s : List Char) : List Char × List Char :=
  (s.takeWhile Char.isDigit, s.dropWhile Char.isDigit)

def digitsToNat (ds : List Char) : Nat :=
  ds.foldl (fun n d => 10 * n + (d.toNat - '0'.toNat)) 0

def exponentPart (s : List Char) : Option Int × List Char :=
  match s with
  | c :: r =>
    if c = 'e' ∨ c = 'E' then
      let (negative, r) := match r with
        | '-' :: r => (true, r)
        | '+' :: r => (false, r)
        | r        => (false, r)
      match decimalDigits r with
      | ([], _) => (none, s)
      | (ds, r) => (some (if negative then -digitsToNat ds else digitsToNat ds), r)
    else (none, s)
  | [] => (none, [])

def placesPart : List Char → Option (List Char) × List Char
  | '.' :: s =>
    match decimalDigits s with
    | ([], _) => (none, '.' :: s)
    | (ds, s) => (some ds, s)
  | s => (none, s)

def mostDigits : Nat := 4300

def number? (negative : Bool) (s : List Char) : Option (Json × List Char) := do
  let (whole, s) ← match s with
    | '0' :: s => some (['0'], s)
    | s        => match decimalDigits s with
      | ([], _) => none
      | (ds, s) => some (ds, s)
  let (places, s) := placesPart s
  let (exponent, s) := exponentPart s
  match places, exponent with
  | none, none =>
    if mostDigits < whole.length then none
    else
      let n := digitsToNat whole
      return (.int (if negative then -n else n), s)
  | places, exponent =>
    let places := places.getD []
    let x := exponent.getD 0 - places.length
    return (.float (.ofDecimal negative (digitsToNat (whole ++ places)) x), s)

mutual

def value? : Nat → List Char → Option (Json × List Char)
  | 0,     _ => none
  | n + 1, s =>
    match s with
    | '"' :: s => do
      let (cs, s) ← stringBody (s.length + 1) s
      return (ofPoints cs, s)
    | '\x7b' :: s =>
      match skip s with
      | '\x7d' :: s => some (.obj [], s)
      | s           => members? n s []
    | '[' :: s =>
      match skip s with
      | ']' :: s => some (.arr [], s)
      | s        => elements? n s []
    | 'n' :: 'u' :: 'l' :: 'l' :: s        => some (.null, s)
    | 't' :: 'r' :: 'u' :: 'e' :: s        => some (.bool true, s)
    | 'f' :: 'a' :: 'l' :: 's' :: 'e' :: s => some (.bool false, s)
    | 'N' :: 'a' :: 'N' :: s               => some (.float .notANumber, s)
    | 'I' :: 'n' :: 'f' :: 'i' :: 'n' :: 'i' :: 't' :: 'y' :: s =>
      some (.float (.infinite false), s)
    | '-' :: 'I' :: 'n' :: 'f' :: 'i' :: 'n' :: 'i' :: 't' :: 'y' :: s =>
      some (.float (.infinite true), s)
    | '-' :: s => number? true s
    | s        => number? false s

def elements? : Nat → List Char → List Json → Option (Json × List Char)
  | 0,     _, _    => none
  | n + 1, s, read => do
    let (v, s) ← value? n s
    match skip s with
    | ',' :: s => elements? n (skip s) (v :: read)
    | ']' :: s => return (.arr (v :: read).reverse, s)
    | _        => none

def members? : Nat → List Char → Ordered Json → Option (Json × List Char)
  | 0,     _, _    => none
  | n + 1, s, read =>
    match s with
    | '"' :: s => do
      let (cs, s) ← stringBody (s.length + 1) s
      match skip s with
      | ':' :: s =>
        let (v, s) ← value? n (skip s)
        let read := read.put (nameOfPoints cs) v
        match skip s with
        | ',' :: s    => members? n (skip s) read
        | '\x7d' :: s => return (.obj read, s)
        | _           => none
      | _ => none
    | _ => none

end

def parse? (text : String) : Option Json :=
  let s := skip text.toList
  match value? (s.length + 1) s with
  | some (v, s) => if (skip s).isEmpty then some v else none
  | none        => none

end ShellArgs.Json
