import ShellArgs.Proofs.Directive.Accounting

-- Lines that define no function of the shell but are taken for such lines: comments that begin
-- with a word and parentheses, and assignments of empty arrays.

namespace ShellArgs.Directive

-- What is taken for a name begins with a number sign or ends with an equals sign.
inductive Mistaken : List Char → Prop
  | comment (hi : ∀ c ∈ indent, Text.isBlank c) (hw : ∀ c ∈ word, Shell.isFunctionChar c)
      (hs : ∀ c ∈ spaces, Text.isBlank c) (hb : ∀ c ∈ gap, Text.isBlank c) :
      Mistaken (indent ++ ('#' :: word ++ (spaces ++ '(' :: (gap ++ ')' :: rest))))
  | assignment (hi : ∀ c ∈ indent, Text.isBlank c) (hw : ∀ c ∈ word, Shell.isFunctionChar c)
      (hs : ∀ c ∈ spaces, Text.isBlank c) (hb : ∀ c ∈ gap, Text.isBlank c) :
      Mistaken (indent ++ (word ++ ['='] ++ (spaces ++ '(' :: (gap ++ ')' :: rest))))
  | keyword (hi : ∀ c ∈ indent, Text.isBlank c) (hs : ∀ c ∈ spaces, Text.isBlank c)
      (hne : spaces ≠ []) (hw : ∀ c ∈ word, Shell.isFunctionChar c)
      (hr : ∀ c ∈ rest.head?, Shell.isFunctionChar c = false) :
      Mistaken (indent ++ ("function".toList ++ (spaces ++ (word ++ ['='] ++ rest))))

-- The line of a function is no comment, and what is said there is no assignment.
structure FromCode (d : Directive) (ls : List (List Char)) : Prop where
  line : ∃ (i : Nat) (l : List Char), ls[i]? = some l ∧ d.line = i + 1 ∧ (Text.trimLeft l).head? ≠ some '#'
  name : d.text.toList.getLast? ≠ some '='

variable {l name : List Char} {d : Directive} {script : String}

theorem trimLeft_name {indent t : List Char} (hi : ∀ c ∈ indent, Text.isBlank c)
    (hn : Shell.isFunctionName name) : Text.trimLeft (indent ++ (name ++ t)) = name ++ t :=
  dropWhile_run hi (head?_name hn)

theorem isFunctionName_hash {word : List Char} (hw : ∀ c ∈ word, Shell.isFunctionChar c) :
    Shell.isFunctionName ('#' :: word) :=
  isFunctionName_iff.mpr ⟨List.cons_ne_nil _ _, List.forall_mem_cons.mpr ⟨by decide, hw⟩⟩

theorem isFunctionName_equals {word : List Char} (hw : ∀ c ∈ word, Shell.isFunctionChar c) :
    Shell.isFunctionName (word ++ ['=']) :=
  isFunctionName_iff.mpr ⟨by simp, List.forall_mem_append.mpr ⟨hw, by simp; decide⟩⟩

theorem Mistaken.exists_defines (h : Mistaken l) :
    ∃ name, Defines name l ∧ ((Text.trimLeft l).head? = some '#' ∨ name.getLast? = some '=') := by
  cases h
  case comment hi hw hs hb =>
    have hn := isFunctionName_hash hw
    exact ⟨_, .parens hi hn hs hb, .inl (by rw [trimLeft_name hi hn]; rfl)⟩
  case assignment hi hw hs hb =>
    exact ⟨_, .parens hi (isFunctionName_equals hw) hs hb, .inr List.getLast?_concat⟩
  case keyword hi hs hne hw hr =>
    exact ⟨_, .keyword hi hs hne (isFunctionName_equals hw) hr, .inr List.getLast?_concat⟩

theorem Defines.mistaken_of_name (h : Defines name l) (he : name.getLast? = some '=') : Mistaken l := by
  obtain ⟨word, rfl⟩ := List.getLast?_eq_some_iff.mp he
  cases h
  case keyword hi hs hne hn hr =>
    exact .keyword hi hs hne (List.forall_mem_append.mp (isFunctionName_iff.mp hn).2).1 hr
  case parens hi hn hs hb =>
    exact .assignment hi (List.forall_mem_append.mp (isFunctionName_iff.mp hn).2).1 hs hb

theorem Defines.mistaken_of_line (h : Defines name l) (he : (Text.trimLeft l).head? = some '#') :
    Mistaken l := by
  cases h
  case keyword hi hs hne hn hr =>
    rw [trimLeft_name hi (by decide)] at he
    cases he
  case parens hi hn hs hb =>
    rw [trimLeft_name hi hn] at he
    have ⟨hne, hw⟩ := isFunctionName_iff.mp hn
    obtain ⟨c, word, rfl⟩ := List.exists_cons_of_ne_nil hne
    cases he
    exact .comment hi (List.forall_mem_cons.mp hw).2 hs hb

theorem mem_functions_iff : (d ∈ (lex script).1 ∧ d.kind = .function) ↔
    ∃ (i : Nat) (l name : List Char), (Text.lines script.toList)[i]? = some l ∧ ¬ IsMarked l ∧
      (¬ ∃ d' ∈ (lex script).1, d'.Takes (Text.lines script.toList) i) ∧ Defines name l ∧
      d = ⟨.function, String.ofList name, i + 1⟩ := by
  simp only [← taken_iff]
  rw [mem_directives_iff]
  constructor
  · rintro ⟨⟨i, l, hl, ht, he⟩, hk⟩
    unfold eventOf? at he
    cases hm : marked? l
    case some m =>
      cases hr : readMarked m
      case error => simp [hm, hr] at he
      case ok a =>
        simp only [hm, hr, Option.some.injEq, Event.directive.injEq] at he
        subst he
        exact absurd hk (ne_function_of_ofTag? (ofTag?_of_readMarked hr))
    case none =>
      rw [hm] at he
      have ⟨name, hf, hd⟩ := Option.map_eq_some_iff.mp he
      exact ⟨i, l, name, hl, marked?_eq_none_iff.mp hm, ht, function?_eq_some_iff.mp hf,
        by cases hd; rfl⟩
  · rintro ⟨i, l, name, hl, hm, ht, hn, rfl⟩
    refine ⟨⟨i, l, hl, ht, ?_⟩, rfl⟩
    rw [eventOf?, marked?_eq_none_iff.mpr hm, function?_eq_some_iff.mpr hn]
    rfl

-- A script has functions from code only, unless a line is mistaken for one that is neither a
-- directive nor part of the text of one.
theorem functions_fromCode_iff : (∀ d ∈ (lex script).1, d.kind = .function → d.FromCode (Text.lines script.toList)) ↔
    ∀ i l, (Text.lines script.toList)[i]? = some l → Mistaken l →
      IsMarked l ∨ ∃ d ∈ (lex script).1, d.Takes (Text.lines script.toList) i := by
  constructor
  · intro h i l hl hm
    by_contra hne
    have ⟨hmark, htake⟩ := not_or.mp hne
    have ⟨name, hn, hb⟩ := hm.exists_defines
    have ⟨hd, hk⟩ := mem_functions_iff.mpr ⟨i, l, name, hl, hmark, htake, hn, rfl⟩
    have ⟨⟨j, l', hl', hj, hline⟩, hname⟩ := h _ hd hk
    have hij : (i : Int) + 1 = j + 1 := hj
    obtain rfl : i = j := by omega
    cases hl.symm.trans hl'
    rcases hb with hb | hb
    case inl => exact hline hb
    case inr => exact hname (by rwa [String.toList_ofList])
  · intro h d hd hk
    obtain ⟨i, l, name, hl, hmark, htake, hn, rfl⟩ := mem_functions_iff.mp ⟨hd, hk⟩
    have hm : ¬ Mistaken l := fun hm => (h i l hl hm).elim hmark htake
    refine ⟨⟨i, l, hl, rfl, fun he => hm (hn.mistaken_of_line he)⟩, fun he => ?_⟩
    exact hm (hn.mistaken_of_name (by rwa [String.toList_ofList] at he))

-- An empty array between a command and its function.
example : ((lex "# @cmd Deploy\nfiles=()\n#old() \x7b\ndeploy() \x7b").1.map (·.text)) =
    ["Deploy", "files=", "#old", "deploy"] := by
  decide +kernel

end ShellArgs.Directive
