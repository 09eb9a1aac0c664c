import Mathlib.Data.List.Basic
import ShellArgs.Shell.Code

-- How the shell reads the patterns of an arm. Quoted characters stand for themselves, and so
-- do plain ones. What is read matches the words that the patterns were written for.

namespace ShellArgs.Shell

inductive Quoting where
  | bare
  | single
  | double
deriving DecidableEq, Repr

-- Characters that keep their meaning between double quotes.
def isActive (c : Char) : Bool :=
  ['$', '\x60', '\\'].contains c

def Glob.literal (c : Char) : Glob :=
  .text (String.singleton c)

-- Reads alternatives up to the parenthesis that closes them. `parts` come before in the same
-- pattern. There is no reading of characters that could mean something else.
def readPatterns (parts : List Glob) : Quoting → List Char → Option (List Pattern)
  | _,       []     => none
  | .single, c :: s =>
    if c = '\'' then readPatterns parts .bare s else readPatterns (parts ++ [.literal c]) .single s
  | .double, c :: s =>
    if c = '"' then readPatterns parts .bare s
    else if isActive c then none
    else readPatterns (parts ++ [.literal c]) .double s
  | .bare,   c :: s =>
    if isPlainChar c then readPatterns (parts ++ [.literal c]) .bare s
    else match c, s with
      | '\'', s                  => readPatterns parts .single s
      | '"',  s                  => readPatterns parts .double s
      | '?',  s                  => readPatterns (parts ++ [.char]) .bare s
      | '*',  s                  => readPatterns (parts ++ [.rest]) .bare s
      | '[',  '!' :: d :: ']' :: s => readPatterns (parts ++ [.charExcept d]) .bare s
      | '|',  s                  => (⟨parts⟩ :: ·) <$> readPatterns [] .bare s
      | ')',  []                 => some [⟨parts⟩]
      | _,    _                  => none

-- A part with its texts taken apart.
def Glob.characters : Glob → List Glob
  | .text t => t.toList.map .literal
  | g       => [g]

def Pattern.characters (p : Pattern) : Pattern :=
  ⟨p.parts.flatMap Glob.characters⟩

variable {parts : List Glob} {s t : List Char}

theorem readPatterns_single :
    readPatterns parts .single (t.flatMap quoteChar ++ '\'' :: s) =
      readPatterns (parts ++ t.map .literal) .bare s := by
  induction t generalizing parts
  case nil => simp [readPatterns]
  case cons c t hi =>
    by_cases hc : c = '\''
    case neg => simp [readPatterns, quoteChar, hc, hi]
    case pos =>
      subst hc
      have hplain : isPlainChar '\'' = false ∧ isPlainChar '"' = false ∧ isActive '\'' = false := by
        decide
      simp [readPatterns, quoteChar, hplain, hi]

theorem readPatterns_plain (h : ∀ c ∈ t, isPlainChar c) :
    readPatterns parts .bare (t ++ s) = readPatterns (parts ++ t.map .literal) .bare s := by
  induction t generalizing parts
  case nil => simp
  case cons c t hi =>
    have ⟨hc, ht⟩ := List.forall_mem_cons.mp h
    rw [List.cons_append, readPatterns.eq_def]
    simp [hc, hi ht]

theorem readPatterns_quote (t : String) :
    readPatterns parts .bare ((quote t).toList ++ s) =
      readPatterns (parts ++ t.toList.map .literal) .bare s := by
  have hplain : isPlainChar '\'' = false := by decide
  unfold quote
  split
  case isTrue h =>
    have ht : t.toList = [] := by simpa using h
    simp [readPatterns, hplain, ht]
  case isFalse =>
    split
    case isTrue h  => exact readPatterns_plain (List.all_eq_true.mp h)
    case isFalse h => simpa [readPatterns, hplain] using readPatterns_single

theorem readPatterns_glob (g : Glob) :
    readPatterns parts .bare (g.written.toList ++ s) =
      readPatterns (parts ++ g.characters) .bare s := by
  have hplain : isPlainChar '?' = false ∧ isPlainChar '*' = false ∧ isPlainChar '[' = false := by
    decide
  cases g
  case text t       => exact readPatterns_quote t
  case char         => simp [Glob.written, Glob.characters, readPatterns, hplain]
  case charExcept c => simp [Glob.written, Glob.characters, readPatterns, hplain]
  case rest         => simp [Glob.written, Glob.characters, readPatterns, hplain]

theorem readPatterns_written (p : Pattern) :
    readPatterns [] .bare (p.written.toList ++ s) = readPatterns p.characters.parts .bare s := by
  suffices ∀ (gs parts : List Glob), readPatterns parts .bare (gs.flatMap (·.written.toList) ++ s) =
      readPatterns (parts ++ gs.flatMap Glob.characters) .bare s by
    simpa [Pattern.written, Pattern.characters, List.flatMap_map] using this p.parts []
  intro gs
  induction gs
  case nil => simp
  case cons g gs hi =>
    intro parts
    rw [List.flatMap_cons, List.append_assoc, readPatterns_glob, hi, List.flatMap_cons,
      List.append_assoc]

-- What an arm is written for is what it is read as.
theorem readPatterns_alternatives {ps : List Pattern} (h : ps ≠ []) :
    readPatterns [] .bare (Pattern.alternatives ps).toList = some (ps.map Pattern.characters) := by
  have hplain : isPlainChar '|' = false ∧ isPlainChar ')' = false := by decide
  have hend : "|".toList = ['|'] ∧ ")".toList = [')'] := ⟨rfl, rfl⟩
  rw [Pattern.alternatives, String.toList_append, String.toList_intercalate, List.map_map, hend.1,
    hend.2]
  induction ps
  case nil => exact absurd rfl h
  case cons p ps hi =>
    cases ps
    case nil => simp [readPatterns_written, readPatterns, hplain]
    case cons q ps =>
      have hrest := hi (List.cons_ne_nil q ps)
      simp only [List.map_cons, List.intercalate_cons_cons, Function.comp_apply,
        List.append_assoc] at hrest ⊢
      rw [readPatterns_written, List.singleton_append, readPatterns.eq_def]
      simp [hplain, hrest]

namespace Glob

variable {gs : List Glob} {w : List Char}

theorem covers_map_literal :
    covers (t.map literal ++ gs) w = (t.isPrefixOf w && covers gs (w.drop t.length)) := by
  induction t generalizing w
  case nil => simp
  case cons c t hi =>
    cases w
    case nil      => simp [covers, literal]
    case cons d w => simp [covers, literal, hi, List.isPrefixOf, Bool.and_assoc]

theorem covers_characters : covers (gs.flatMap characters) w = covers gs w := by
  induction gs generalizing w
  case nil => rfl
  case cons g gs hi =>
    cases g
    case text t       => simp [characters, covers_map_literal, covers, hi]
    case char         => cases w <;> simp [characters, covers, hi]
    case charExcept c => cases w <;> simp [characters, covers, hi]
    case rest         =>
      induction w
      case nil         => simp [characters, covers, hi]
      case cons d w hw =>
        have hw : covers (.rest :: gs.flatMap characters) w = covers (.rest :: gs) w := hw
        simp [characters, covers, hi, hw]

end Glob

end ShellArgs.Shell
