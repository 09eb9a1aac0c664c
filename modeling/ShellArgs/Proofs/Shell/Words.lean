import ShellArgs.Proofs.Shell.Flat
import ShellArgs.Proofs.Shell.Reading

-- How the shell reads the words of a command. Quoted characters stand for themselves, and so do
-- plain ones. A variable between double quotes stands for its value. A text that is written as a word
-- is read as that one word again.

namespace ShellArgs.Shell

-- Where the shell is, and what it has read of a word there.
inductive WordState where
  | between
  | bare (word : List Char)
  | single (word : List Char)
  | double (word : List Char)
  | expansion (word name : List Char)
deriving DecidableEq, Repr

namespace WordState

-- A character outside of quotes that ends no word.
def inner? (word : List Char) (c : Char) : Option WordState :=
  if isPlainChar c then some (bare (word ++ [c]))
  else if c = '\'' then some (single word)
  else if c = '"' then some (double word)
  else none

-- The state after a character, and the word that ends there. There is none if the character could
-- mean something else.
def next? (value : String → String) : WordState → Char → Option (WordState × Option String)
  | between, c =>
    if c = ' ' then some (between, none) else (inner? [] c).map (·, none)
  | bare word, c =>
    if c = ' ' then some (between, some (String.ofList word)) else (inner? word c).map (·, none)
  | single word, c =>
    some (if c = '\'' then bare word else single (word ++ [c]), none)
  | double word, c =>
    if c = '"' then some (bare word, none)
    else if c = '$' then some (expansion word [], none)
    else if isActive c then none
    else some (double (word ++ [c]), none)
  | expansion word name, c =>
    if isNameChar c then some (expansion word (name ++ [c]), none)
    else if c = '"' ∧ isName name then
      some (bare (word ++ (value (String.ofList name)).toList), none)
    else none

-- The words that end with the command.
def last? : WordState → Option (List String)
  | between   => some []
  | bare word => some [String.ofList word]
  | _         => none

end WordState

def readWords (value : String → String) : WordState → List Char → Option (List String)
  | q, []     => q.last?
  | q, c :: s =>
    match q.next? value c with
    | some (q', some word) => (readWords value q' s).map (word :: ·)
    | some (q', none)      => readWords value q' s
    | none                 => none

-- The words of a command, where variables have these values.
def words? (value : String → String) (command : String) : Option (List String) :=
  readWords value .between command.toList

variable {value : String → String} {s t word rest : List Char}

theorem readWords_plain {c : Char} (h : isPlainChar c) :
    readWords value (.bare word) (c :: rest) = readWords value (.bare (word ++ [c])) rest := by
  have hs : c ≠ ' ' := by
    rintro rfl
    cases h
  simp [readWords, WordState.next?, WordState.inner?, hs, h]

theorem readWords_single :
    readWords value (.single word) (t.flatMap quoteChar ++ '\'' :: rest) =
      readWords value (.bare (word ++ t)) rest := by
  induction t generalizing word
  case nil => simp [readWords, WordState.next?]
  case cons c t hi =>
    by_cases hc : c = '\''
    case neg => simp [readWords, WordState.next?, quoteChar, hc, hi]
    case pos =>
      subst hc
      have hplain : isPlainChar '\'' = false ∧ isPlainChar '"' = false ∧ isActive '\'' = false := by
        decide
      simp [readWords, WordState.next?, WordState.inner?, quoteChar, hplain, hi]

-- A word begins with the first character that is no blank.
theorem readWords_between {c : Char} (h : c ≠ ' ') :
    readWords value .between (c :: s) = readWords value (.bare []) (c :: s) := by
  simp [readWords, WordState.next?, h]

-- A text that adds characters to a word, wherever in the word it stands.
structure Reads (value : String → String) (text chars : List Char) : Prop where
  nonempty : text ≠ []
  start    : ∀ c ∈ text.head?, c ≠ ' '
  bare     : ∀ word rest,
    readWords value (.bare word) (text ++ rest) = readWords value (.bare (word ++ chars)) rest

theorem reads_plain (hne : t ≠ []) (h : t.all isPlainChar) : Reads value t t where
  nonempty := hne
  start := by
    rintro c hc rfl
    cases List.all_eq_true.mp h ' ' (List.mem_of_mem_head? hc)
  bare := by
    clear hne
    induction t
    case nil => simp
    case cons c t hi =>
      intro word rest
      have ⟨hc, ht⟩ := Bool.and_eq_true_iff.mp (List.all_cons ▸ h)
      rw [List.cons_append, readWords_plain hc, hi ht]
      simp

theorem reads_quote (t : String) : Reads value (quote t).toList t.toList := by
  have hplain : isPlainChar '\'' = false := by decide
  unfold quote
  split
  case isTrue h =>
    have ht : t.toList = [] := by simpa using h
    refine ⟨by simp, by simp, fun word rest => ?_⟩
    simp [readWords, WordState.next?, WordState.inner?, hplain, ht]
  case isFalse hne =>
    split
    case isTrue h  => exact reads_plain (by simpa using hne) h
    case isFalse h =>
      rw [String.toList_ofList]
      refine ⟨by simp, by simp, fun word rest => ?_⟩
      simp [readWords, WordState.next?, WordState.inner?, hplain, readWords_single]

theorem readWords_expansion (value : String → String) (word rest name : List Char)
    (hs : ∀ c ∈ s, isNameChar c) (hn : isName (name ++ s)) :
    readWords value (.expansion word name) (s ++ '"' :: rest) =
      readWords value (.bare (word ++ (value (String.ofList (name ++ s))).toList)) rest := by
  induction s generalizing name
  case nil =>
    have hquote : isNameChar '"' = false := by decide
    rw [List.append_nil] at hn
    simp [readWords, WordState.next?, hquote, hn]
  case cons c s hi =>
    have ⟨hc, hs⟩ := List.forall_mem_cons.mp hs
    have hname : isName ((name ++ [c]) ++ s) := by simpa using hn
    simpa [readWords, WordState.next?, hc] using hi _ hs hname

-- The value of a variable is part of one word, whatever characters are in it.
theorem reads_variable {name : String} (h : isName name.toList) :
    Reads value (doubleQuoted ("$" ++ name)).toList (value name).toList where
  nonempty := by simp [doubleQuoted]
  start := by simp [doubleQuoted]
  bare := by
    intro word rest
    have hname : isName ([] ++ name.toList) := h
    have hread := readWords_expansion value word rest [] (isNameChar_of_isName h) hname
    have hplain : isPlainChar '"' = false := by decide
    simpa [doubleQuoted, readWords, WordState.next?, WordState.inner?, hplain] using hread

theorem readWords_word (rest : List Char) {u w : String} (h : Reads value u.toList w.toList) :
    readWords value .between (u.toList ++ rest) = readWords value (.bare w.toList) rest := by
  have hbare := h.bare [] rest
  obtain ⟨c, cs, hc⟩ := List.exists_cons_of_ne_nil h.nonempty
  rw [hc, List.cons_append] at hbare ⊢
  rw [readWords_between (h.start c (by simp [hc])), hbare, List.nil_append]

-- Texts with blanks between them are read as words of their own.
theorem words?_intercalate {us ws : List String}
    (h : List.Forall₂ (fun u w => Reads value u.toList w.toList) us ws) :
    words? value (" ".intercalate us) = some ws := by
  rw [words?, String.toList_intercalate]
  induction h
  case nil => rfl
  case cons u w us ws hu hus hi =>
    cases hus
    case nil => simpa [readWords, WordState.last?] using readWords_word [] hu
    case cons u' w' us ws hu' hus =>
      rw [List.map_cons] at hi ⊢
      rw [List.map_cons, List.intercalate_cons_cons, List.append_assoc, readWords_word _ hu]
      simpa [readWords, WordState.next?] using hi

-- Characters that are more than themselves outside of quotes: blanks, the special characters, and
-- those of patterns, home directories, comments and negations.
def isMeaningful (c : Char) : Bool :=
  Text.isBlank c || specialChars.contains c || ['*', '?', '~', '#', '!'].contains c

theorem isMeaningful_of_isPlainChar {c : Char} (h : isPlainChar c) : isMeaningful c = false := by
  have hall : ∀ n : Fin 128, isPlainChar (Char.ofNat n) → isMeaningful (Char.ofNat n) = false := by
    decide +kernel
  have := hall ⟨c.toNat, toNat_lt_of_isPlainChar h⟩
  rw [Char.ofNat_toNat] at this
  exact this h

theorem words?_map_quote (ts : List String) :
    words? value (" ".intercalate (ts.map quote)) = some ts :=
  words?_intercalate (List.forall₂_map_left_iff.mpr
    (List.forall₂_same.mpr fun t _ => reads_quote t))

theorem words?_quote (t : String) : words? value (quote t) = some [t] := by
  have h : words? value (" ".intercalate ([t].map quote)) = some [t] := words?_map_quote [t]
  simpa using h

-- Every text is read back from what is written of it, as one word of however many, whatever
-- variables there are. What stands outside of quotes there could mean nothing else.
theorem quote_invertible :
    (∀ value t, words? value (quote t) = some [t]) ∧ Function.Injective quote ∧
    (∀ value ts, words? value (" ".intercalate (ts.map quote)) = some ts) ∧
    ∀ c, isPlainChar c → isMeaningful c = false := by
  refine ⟨fun _ => words?_quote, fun s t h => ?_, fun _ => words?_map_quote,
    fun _ => isMeaningful_of_isPlainChar⟩
  have hs : words? id (quote s) = some [s] := words?_quote s
  rw [h, words?_quote t] at hs
  exact (List.singleton_inj.mp (Option.some.inj hs)).symm

example : words? id "'it'\"'\"'s' 'a b' c" = some ["it's", "a b", "c"] := by
  decide

end ShellArgs.Shell
