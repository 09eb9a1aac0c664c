import Mathlib.Data.List.TakeWhile
import ShellArgs.Directive.Lexer

namespace ShellArgs.Directive

variable {l s t name : List Char} {p : Char → Bool}

-- Number signs, spaces or tabs, and the mark `@`, at the start of the line.
def IsMarked (l : List Char) : Prop :=
  ∃ hashes spaces rest, l = hashes ++ (spaces ++ '@' :: rest) ∧ hashes ≠ [] ∧
    (∀ c ∈ hashes, c = '#') ∧ ∀ c ∈ spaces, c = ' ' ∨ c = '\t'

-- The mark is followed by a tag, which ends at the first blank.
def HasTag (tag l : List Char) : Prop :=
  ∃ hashes spaces rest, l = hashes ++ (spaces ++ '@' :: (tag ++ rest)) ∧ hashes ≠ [] ∧
    (∀ c ∈ hashes, c = '#') ∧ (∀ c ∈ spaces, c = ' ' ∨ c = '\t') ∧
    (∀ c ∈ tag, Text.isBlank c = false) ∧ ∀ c ∈ rest.head?, Text.isBlank c

structure IsPlainComment (l : List Char) : Prop where
  hash     : l.head? = some '#'
  unmarked : ¬ IsMarked l
  -- Such a line says which program runs the script.
  noBang   : ¬ "#!".toList <+: l

-- A name after the keyword `function`, or before a pair of parentheses. A name ends where no
-- character of a name follows.
inductive Defines (name : List Char) : List Char → Prop
  | keyword (hi : ∀ c ∈ indent, Text.isBlank c) (hs : ∀ c ∈ spaces, Text.isBlank c) (hne : spaces ≠ [])
      (hn : Shell.isFunctionName name) (hr : ∀ c ∈ rest.head?, Shell.isFunctionChar c = false) :
      Defines name (indent ++ ("function".toList ++ (spaces ++ (name ++ rest))))
  | parens (hi : ∀ c ∈ indent, Text.isBlank c) (hn : Shell.isFunctionName name)
      (hs : ∀ c ∈ spaces, Text.isBlank c) (hb : ∀ c ∈ gap, Text.isBlank c) :
      Defines name (indent ++ (name ++ (spaces ++ '(' :: (gap ++ ')' :: rest))))

-- A text is a run of characters and what ends it.
section Runs

theorem exists_run (p : Char → Bool) (l : List Char) :
    ∃ s t, l = s ++ t ∧ (∀ c ∈ s, p c) ∧ ∀ c ∈ t.head?, p c = false := by
  refine ⟨l.takeWhile p, l.dropWhile p, List.takeWhile_append_dropWhile.symm,
    fun c hc => List.mem_takeWhile_imp hc, fun c hc => ?_⟩
  simpa [Option.mem_def.mp hc] using List.head?_dropWhile_not p l

theorem head?_cons {c : Char} (h : p c = false) : ∀ d ∈ (c :: t).head?, p d = false := by
  rintro d ⟨⟩
  exact h

theorem takeWhile_run (hs : ∀ c ∈ s, p c) (ht : ∀ c ∈ t.head?, p c = false) :
    (s ++ t).takeWhile p = s := by
  have : t.takeWhile p = [] := by
    cases t
    case nil      => rfl
    case cons c t => simp [ht c rfl]
  rw [List.takeWhile_append_of_pos hs, this, List.append_nil]

theorem dropWhile_run (hs : ∀ c ∈ s, p c) (ht : ∀ c ∈ t.head?, p c = false) :
    (s ++ t).dropWhile p = t := by
  have : t.dropWhile p = t := by
    cases t
    case nil      => rfl
    case cons c t => simp [ht c rfl]
  rw [List.dropWhile_append_of_pos hs, this]

theorem run_unique {s' t' : List Char} (h : s ++ t = s' ++ t') (hs : ∀ c ∈ s, p c)
    (ht : ∀ c ∈ t.head?, p c = false) (hs' : ∀ c ∈ s', p c) (ht' : ∀ c ∈ t'.head?, p c = false) :
    s = s' ∧ t = t' := by
  constructor
  · rw [← takeWhile_run hs ht, h, takeWhile_run hs' ht']
  · rw [← dropWhile_run hs ht, h, dropWhile_run hs' ht']

end Runs

section Marked

variable {hashes spaces tag : List Char} {m : Marked}

theorem exists_of_marked? (h : marked? l = some m) : ∃ hashes spaces s,
    l = hashes ++ (spaces ++ '@' :: s) ∧ hashes ≠ [] ∧ (∀ c ∈ hashes, c = '#') ∧
      (∀ c ∈ spaces, c = ' ' ∨ c = '\t') ∧ m.tag = s.takeWhile (!Text.isBlank ·) := by
  obtain ⟨hashes, t, rfl, hh, ht⟩ := exists_run (· == '#') l
  obtain ⟨spaces, u, rfl, hs, hu⟩ := exists_run marked?.isSpace t
  simp only [marked?, takeWhile_run hh ht, dropWhile_run hh ht, dropWhile_run hs hu] at h
  split at h
  case h_2 => cases h
  case h_1 c cs s =>
    cases h
    exact ⟨_, spaces, s, rfl, by simp, fun c hc => by simpa using hh c hc,
      fun c hc => by simpa [marked?.isSpace] using hs c hc, rfl⟩

theorem exists_marked? (hne : hashes ≠ []) (hh : ∀ c ∈ hashes, c = '#')
    (hs : ∀ c ∈ spaces, c = ' ' ∨ c = '\t') :
    ∃ m, marked? (hashes ++ (spaces ++ '@' :: s)) = some m ∧
      m.tag = s.takeWhile (!Text.isBlank ·) := by
  have hh : ∀ c ∈ hashes, (c == '#') = true := by simpa using hh
  have hsp : ∀ c ∈ spaces, marked?.isSpace c := fun c hc => by simpa [marked?.isSpace] using hs c hc
  have ht : ∀ c ∈ (spaces ++ '@' :: s).head?, (c == '#') = false := by
    cases spaces
    case nil           => exact head?_cons (by decide)
    case cons d spaces => exact head?_cons (by obtain rfl | rfl := hs d List.mem_cons_self <;> decide)
  have hat : marked?.isSpace '@' = false := by decide
  obtain ⟨c, cs, rfl⟩ := List.exists_cons_of_ne_nil hne
  simp only [marked?, takeWhile_run hh ht, dropWhile_run hh ht, dropWhile_run hsp (head?_cons hat)]
  exact ⟨_, rfl, rfl⟩

theorem isSome_marked?_iff : (marked? l).isSome ↔ IsMarked l := by
  rw [Option.isSome_iff_exists]
  constructor
  · intro ⟨m, h⟩
    have ⟨hashes, spaces, s, hl, hne, hh, hs, _⟩ := exists_of_marked? h
    exact ⟨hashes, spaces, s, hl, hne, hh, hs⟩
  · rintro ⟨hashes, spaces, s, rfl, hne, hh, hs⟩
    have ⟨m, h, _⟩ := exists_marked? (s := s) hne hh hs
    exact ⟨m, h⟩

theorem marked?_eq_none_iff : marked? l = none ↔ ¬ IsMarked l := by
  rw [← isSome_marked?_iff]
  simp

theorem hasTag_iff : HasTag tag l ↔ ∃ m, marked? l = some m ∧ m.tag = tag := by
  constructor
  · rintro ⟨hashes, spaces, rest, rfl, hne, hh, hs, ht, hr⟩
    have ⟨m, h, hm⟩ := exists_marked? (s := tag ++ rest) hne hh hs
    exact ⟨m, h, hm.trans (takeWhile_run (by simpa using ht) (by simpa using hr))⟩
  · rintro ⟨m, h, rfl⟩
    obtain ⟨hashes, spaces, s, rfl, hne, hh, hs, hm⟩ := exists_of_marked? h
    obtain ⟨tag, rest, rfl, ht, hr⟩ := exists_run (!Text.isBlank ·) s
    refine ⟨hashes, spaces, rest, ?_, hne, hh, hs, ?_, by simpa using hr⟩
    case refine_1 => rw [hm, takeWhile_run ht hr]
    case refine_2 => rw [hm, takeWhile_run ht hr]; simpa using ht

instance : Decidable (HasTag tag l) :=
  decidable_of_iff ((marked? l).any (·.tag = tag)) (by simp [hasTag_iff, Option.any_eq_true])

end Marked

theorem isSome_comment?_iff : (comment? l).isSome ↔ l.head? = some '#' := by
  unfold comment?
  split
  case h_1 => split <;> simp
  case h_2 h =>
    cases l
    case nil      => simp
    case cons c l =>
      have : c ≠ '#' := fun hc => h l (by rw [hc])
      simp [this]

theorem continuation?_of_plain (h : IsPlainComment l) : continuation? l = comment? l := by
  have hb : "#!".toList.isPrefixOf l = false := by
    simpa only [Bool.eq_false_iff, ne_eq, List.isPrefixOf_iff_prefix] using h.noBang
  rw [continuation?, marked?_eq_none_iff.mpr h.unmarked, hb]
  rfl

theorem continuation?_eq_none (h : ¬ IsPlainComment l) : continuation? l = none := by
  unfold continuation?
  split
  case isTrue => rfl
  case isFalse hl =>
    simp only [Bool.or_eq_true, not_or, isSome_marked?_iff, List.isPrefixOf_iff_prefix] at hl
    rw [← Option.not_isSome_iff_eq_none, isSome_comment?_iff]
    exact fun hh => h ⟨hh, hl.1, hl.2⟩

theorem isBlank_eq_false_of_isFunctionChar {c : Char} (h : Shell.isFunctionChar c) :
    Text.isBlank c = false := by
  simp only [Shell.isFunctionChar, Bool.and_eq_true, Bool.not_eq_true'] at h
  exact h.1

theorem isFunctionChar_eq_false_of_isBlank {c : Char} (h : Text.isBlank c) :
    Shell.isFunctionChar c = false := by
  simp only [Shell.isFunctionChar, h, Bool.not_true, Bool.false_and]

theorem isFunctionName_iff :
    Shell.isFunctionName name ↔ name ≠ [] ∧ ∀ c ∈ name, Shell.isFunctionChar c := by
  simp [Shell.isFunctionName]

-- Names do not start with blanks.
theorem head?_name (hn : Shell.isFunctionName name) :
    ∀ c ∈ (name ++ t).head?, Text.isBlank c = false := by
  have ⟨hne, hn⟩ := isFunctionName_iff.mp hn
  obtain ⟨c, cs, rfl⟩ := List.exists_cons_of_ne_nil hne
  exact head?_cons (isBlank_eq_false_of_isFunctionChar (hn c List.mem_cons_self))

-- Names end at blanks.
theorem head?_spaces (hs : ∀ c ∈ s, Text.isBlank c) (ht : ∀ c ∈ t.head?, Shell.isFunctionChar c = false) :
    ∀ c ∈ (s ++ t).head?, Shell.isFunctionChar c = false := by
  cases s
  case nil => exact ht
  case cons d s => exact head?_cons (isFunctionChar_eq_false_of_isBlank (hs d List.mem_cons_self))

theorem functionKeyword?_eq_some_iff : functionKeyword? l = some name ↔
    ∃ indent spaces rest, l = indent ++ ("function".toList ++ (spaces ++ (name ++ rest))) ∧
      (∀ c ∈ indent, Text.isBlank c) ∧ (∀ c ∈ spaces, Text.isBlank c) ∧ spaces ≠ [] ∧
      Shell.isFunctionName name ∧ ∀ c ∈ rest.head?, Shell.isFunctionChar c = false := by
  constructor
  · intro h
    obtain ⟨indent, t, rfl, hi, ht⟩ := exists_run Text.isBlank l
    simp only [functionKeyword?, Text.trimLeft, dropWhile_run hi ht] at h
    split at h
    case isFalse => cases h
    case isTrue hp =>
      obtain ⟨u, rfl⟩ := List.isPrefixOf_iff_prefix.mp hp
      obtain ⟨spaces, v, rfl, hs, hv⟩ := exists_run Text.isBlank u
      obtain ⟨word, rest, rfl, hw, hr⟩ := exists_run Shell.isFunctionChar v
      rw [List.drop_left, dropWhile_run hs hv, takeWhile_run hw hr] at h
      split at h
      case isFalse => cases h
      case isTrue hb =>
        cases h
        simp only [Bool.and_eq_true, Bool.not_eq_true', List.isEmpty_eq_false_iff] at hb
        refine ⟨indent, spaces, rest, rfl, hi, hs, ?_, isFunctionName_iff.mpr ⟨hb.2, hw⟩, hr⟩
        rintro rfl
        cases hn : (name ++ rest).head? <;> simp_all
  · rintro ⟨indent, spaces, rest, rfl, hi, hs, hne, hn, hr⟩
    have hw : Shell.isFunctionName "function".toList := by decide
    have hblank : (spaces ++ (name ++ rest)).head?.any Text.isBlank := by
      obtain ⟨c, cs, rfl⟩ := List.exists_cons_of_ne_nil hne
      simpa using hs c List.mem_cons_self
    have hname := isFunctionName_iff.mp hn
    simp only [functionKeyword?, Text.trimLeft, dropWhile_run hi (head?_name hw),
      List.isPrefixOf_iff_prefix.mpr (List.prefix_append ..), if_true, List.drop_left, hblank,
      dropWhile_run hs (head?_name hn), takeWhile_run hname.2 hr]
    simp [hname.1]

theorem functionParens?_eq_some_iff : functionParens? l = some name ↔
    ∃ indent spaces gap rest, l = indent ++ (name ++ (spaces ++ '(' :: (gap ++ ')' :: rest))) ∧
      (∀ c ∈ indent, Text.isBlank c) ∧ Shell.isFunctionName name ∧ (∀ c ∈ spaces, Text.isBlank c) ∧
      ∀ c ∈ gap, Text.isBlank c := by
  constructor
  · intro h
    obtain ⟨indent, t, rfl, hi, ht⟩ := exists_run Text.isBlank l
    obtain ⟨word, u, rfl, hw, hu⟩ := exists_run Shell.isFunctionChar t
    obtain ⟨spaces, v, rfl, hs, hv⟩ := exists_run Text.isBlank u
    simp only [functionParens?, Text.trimLeft, dropWhile_run hi ht, takeWhile_run hw hu,
      dropWhile_run hw hu, dropWhile_run hs hv] at h
    split at h
    case h_2 => cases h
    case h_1 c cs x =>
      obtain ⟨gap, y, rfl, hb, hy⟩ := exists_run Text.isBlank x
      rw [dropWhile_run hb hy] at h
      split at h
      case h_2 => cases h
      case h_1 rest =>
        cases h
        exact ⟨indent, spaces, gap, rest, rfl, hi, isFunctionName_iff.mpr ⟨by simp, hw⟩, hs, hb⟩
  · rintro ⟨indent, spaces, gap, rest, rfl, hi, hn, hs, hb⟩
    have hopen : Text.isBlank '(' = false := by decide
    have hclose : Text.isBlank ')' = false := by decide
    have hend : Shell.isFunctionChar '(' = false := by decide
    have hspaces := head?_spaces hs (head?_cons (t := gap ++ ')' :: rest) hend)
    have hname := isFunctionName_iff.mp hn
    simp only [functionParens?, Text.trimLeft, dropWhile_run hi (head?_name hn), takeWhile_run hname.2 hspaces,
      dropWhile_run hname.2 hspaces, dropWhile_run hs (head?_cons hopen)]
    obtain ⟨c, cs, rfl⟩ := List.exists_cons_of_ne_nil hname.1
    simp only [dropWhile_run hb (head?_cons hclose)]

-- Where the keyword stands before the parentheses, it is the name of the function.
theorem functionKeyword?_eq_none (h : functionParens? l = some name) : functionKeyword? l = none := by
  obtain ⟨indent, spaces, gap, rest, hl, hi, hn, hs, -⟩ := functionParens?_eq_some_iff.mp h
  rw [Option.eq_none_iff_forall_ne_some]
  intro word hword
  obtain ⟨indent', spaces', rest', hl', hi', hs', hne', hn', -⟩ := functionKeyword?_eq_some_iff.mp hword
  have hf : Shell.isFunctionName "function".toList := by decide
  have ⟨_, htrim⟩ := run_unique (hl.symm.trans hl') hi (head?_name hn) hi' (head?_name hf)
  have hopen : Shell.isFunctionChar '(' = false := by decide
  have hspaces' : ∀ c ∈ (spaces' ++ (word ++ rest')).head?, Shell.isFunctionChar c = false := by
    obtain ⟨c, cs, rfl⟩ := List.exists_cons_of_ne_nil hne'
    exact head?_cons (isFunctionChar_eq_false_of_isBlank (hs' c List.mem_cons_self))
  have ⟨_, hafter⟩ := run_unique htrim (isFunctionName_iff.mp hn).2 (head?_spaces hs (head?_cons hopen))
    (isFunctionName_iff.mp hf).2 hspaces'
  have ⟨_, hparen⟩ := run_unique hafter hs (head?_cons (by decide)) hs' (head?_name hn')
  have ⟨hne, hword⟩ := isFunctionName_iff.mp hn'
  obtain ⟨c, cs, rfl⟩ := List.exists_cons_of_ne_nil hne
  have hc : '(' = c := (List.cons.inj hparen).1
  exact absurd (hword c List.mem_cons_self) (by simp [← hc, hopen])

theorem function?_eq_some_iff : function? l = some name ↔ Defines name l := by
  constructor
  · intro h
    unfold function? at h
    cases hk : functionKeyword? l
    case some word =>
      rw [hk] at h
      cases h
      obtain ⟨_, _, _, rfl, hi, hs, hne, hn, hr⟩ := functionKeyword?_eq_some_iff.mp hk
      exact .keyword hi hs hne hn hr
    case none =>
      rw [hk] at h
      obtain ⟨_, _, _, _, rfl, hi, hn, hs, hb⟩ := functionParens?_eq_some_iff.mp h
      exact .parens hi hn hs hb
  · intro h
    unfold function?
    cases h
    case keyword hi hs hne hn hr =>
      rw [functionKeyword?_eq_some_iff.mpr ⟨_, _, _, rfl, hi, hs, hne, hn, hr⟩]
      rfl
    case parens indent spaces gap rest hi hn hs hb =>
      have hp := functionParens?_eq_some_iff.mpr ⟨indent, spaces, gap, rest, rfl, hi, hn, hs, hb⟩
      rw [functionKeyword?_eq_none hp]
      exact hp

-- Lines that define no function, or no function of a name. What counts is the first word, a run of
-- characters that a name can have, and what comes after it.
section Undefining

variable {indent spaces word rest : List Char}

theorem exists_word (h : Defines name (indent ++ t)) (hi : ∀ c ∈ indent, Text.isBlank c)
    (ht : ∀ c ∈ t.head?, Text.isBlank c = false) :
    ∃ w gap c u, t = w ++ (gap ++ c :: u) ∧ (∀ d ∈ w, Shell.isFunctionChar d) ∧
      (∀ d ∈ gap, Text.isBlank d) ∧ (∀ d ∈ (gap ++ c :: u).head?, Shell.isFunctionChar d = false) ∧
      (w = "function".toList ∧ Shell.isFunctionChar c ∨ w = name ∧ c = '(') := by
  generalize hl : indent ++ t = l at h
  cases h
  case keyword indent' spaces rest hi' hs hne hn hr =>
    have hf : Shell.isFunctionName "function".toList := by decide
    obtain ⟨_, rfl⟩ := run_unique hl hi ht hi' (head?_name hf)
    have ⟨hnn, hname⟩ := isFunctionName_iff.mp hn
    obtain ⟨c, cs, rfl⟩ := List.exists_cons_of_ne_nil hnn
    obtain ⟨d, ds, rfl⟩ := List.exists_cons_of_ne_nil hne
    refine ⟨_, d :: ds, c, cs ++ rest, rfl, (isFunctionName_iff.mp hf).2, hs, ?_, .inl ⟨rfl, ?_⟩⟩
    · exact head?_cons (isFunctionChar_eq_false_of_isBlank (hs d List.mem_cons_self))
    · exact hname c List.mem_cons_self
  case parens indent' spaces gap rest hi' hn hs hb =>
    obtain ⟨_, rfl⟩ := run_unique hl hi ht hi' (head?_name hn)
    refine ⟨name, spaces, '(', _, rfl, (isFunctionName_iff.mp hn).2, hs, ?_, .inr ⟨rfl, rfl⟩⟩
    exact head?_spaces hs (head?_cons (by decide))

-- After the word comes something else than a name or a parenthesis.
theorem not_defines_of_word (hi : ∀ c ∈ indent, Text.isBlank c)
    (ht : ∀ c ∈ (word ++ (spaces ++ rest)).head?, Text.isBlank c = false)
    (hw : ∀ c ∈ word, Shell.isFunctionChar c) (hs : ∀ c ∈ spaces, Text.isBlank c)
    (hr : ∀ c ∈ rest.head?, Text.isBlank c = false ∧ Shell.isFunctionChar c = false ∧ c ≠ '(') :
    ¬ Defines name (indent ++ (word ++ (spaces ++ rest))) := by
  intro h
  obtain ⟨w, gap, c, u, he, hw', hg, hu, hc⟩ := exists_word h hi ht
  have hend := head?_spaces hs fun d hd => (hr d hd).2.1
  obtain ⟨rfl, hafter⟩ := run_unique he hw hend hw' hu
  have hblank : Text.isBlank c = false := by
    rcases hc with ⟨_, hc⟩ | ⟨_, rfl⟩
    case inl => exact isBlank_eq_false_of_isFunctionChar hc
    case inr => decide
  obtain ⟨_, rfl⟩ := run_unique hafter hs (fun d hd => (hr d hd).1) hg (head?_cons hblank)
  have ⟨_, hf, hp⟩ := hr c rfl
  rcases hc with ⟨_, hc⟩ | ⟨_, hc⟩
  case inl => simp [hc] at hf
  case inr => exact hp hc

-- The word is neither the keyword nor the name.
theorem not_defines_of_prefix (hi : ∀ c ∈ indent, Text.isBlank c)
    (ht : ∀ c ∈ t.head?, Text.isBlank c = false) (hf : ¬ "function".toList <+: t)
    (hn : ¬ name <+: t) : ¬ Defines name (indent ++ t) := by
  intro h
  obtain ⟨w, gap, c, u, rfl, _, _, _, ⟨rfl, _⟩ | ⟨rfl, _⟩⟩ := exists_word h hi ht
  case inl => exact hf (List.prefix_append ..)
  case inr => exact hn (List.prefix_append ..)

-- The word has a character that is neither in the keyword nor in the name.
theorem not_defines_of_mem {d : Char} (hi : ∀ c ∈ indent, Text.isBlank c)
    (ht : ∀ c ∈ (word ++ t).head?, Text.isBlank c = false) (hw : ∀ c ∈ word, Shell.isFunctionChar c)
    (hd : d ∈ word) (hf : d ∉ "function".toList) (hn : d ∉ name) :
    ¬ Defines name (indent ++ (word ++ t)) := by
  intro h
  obtain ⟨w, gap, c, u, he, _, _, hu, hc⟩ := exists_word h hi ht
  have hm : d ∈ w := by
    rcases List.append_eq_append_iff.mp he with ⟨mid, rfl, _⟩ | ⟨mid, rfl, hmid⟩
    case inl => exact List.mem_append_left mid hd
    case inr =>
      cases mid
      case nil => simpa using hd
      case cons a mid =>
        have := hu a (by rw [hmid]; rfl)
        simp [hw a (by simp)] at this
  rcases hc with ⟨rfl, _⟩ | ⟨rfl, _⟩
  case inl => exact hf hm
  case inr => exact hn hm

end Undefining

end ShellArgs.Directive
