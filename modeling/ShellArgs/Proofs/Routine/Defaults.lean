import ShellArgs.Proofs.Builder.Flat
import ShellArgs.Proofs.Shell.Words

-- Defaults and the checks of values that a routine makes when it runs. What an accepted script
-- declares as a default passes them.

namespace ShellArgs

open Text

-- Digits, at least one.
def IsDigits (s : List Char) : Prop :=
  s ≠ [] ∧ ∀ c ∈ s, c.isDigit

-- A minus sign if there is one, digits, and a point with more digits if there is one.
def IsNumber (s : List Char) : Prop :=
  ∃ sign whole fraction, s = sign ++ (whole ++ fraction) ∧ (sign = [] ∨ sign = ['-']) ∧
    IsDigits whole ∧ (fraction = [] ∨ ∃ digits, fraction = '.' :: digits ∧ IsDigits digits)

namespace IsNumber

variable {s : List Char}

theorem isDigits_takeWhile (h : (s.takeWhile Char.isDigit).isEmpty = false) :
    IsDigits (s.takeWhile Char.isDigit) :=
  ⟨by simpa using h, fun _ hc => by simpa using List.mem_takeWhile_imp hc⟩

theorem dropWhile_ne_lineFeed (h : Flat s) : s.dropWhile Char.isDigit ≠ ['\n'] := by
  intro he
  have hmem : '\n' ∈ s := (List.dropWhile_sublist Char.isDigit).subset (by rw [he]; simp)
  cases h _ hmem

theorem of_isEnd (h : isNumberText.isEnd s) (hs : Flat s) :
    s = [] ∨ ∃ digits, s = '.' :: digits ∧ IsDigits digits := by
  unfold isNumberText.isEnd at h
  split at h
  case h_1 => exact .inl rfl
  case h_2 => cases hs _ List.mem_cons_self
  case h_3 digits =>
    simp only [Bool.and_eq_true, Bool.not_eq_true', Bool.or_eq_true, beq_iff_eq] at h
    have hrest : digits.dropWhile Char.isDigit = [] :=
      h.2.resolve_right (dropWhile_ne_lineFeed (flat_cons.mp hs).2)
    have hall : digits.takeWhile Char.isDigit = digits := by
      have := List.takeWhile_append_dropWhile (p := Char.isDigit) (l := digits)
      rwa [hrest, List.append_nil] at this
    exact .inr ⟨digits, rfl, hall ▸ isDigits_takeWhile h.1⟩
  case h_4 => cases h

theorem of_isUnsigned (sign : List Char) (hsign : sign = [] ∨ sign = ['-'])
    (h : isNumberText.isUnsigned s) (hs : Flat s) : IsNumber (sign ++ s) := by
  simp only [isNumberText.isUnsigned, Bool.and_eq_true, Bool.not_eq_true'] at h
  have hend : Flat (s.dropWhile Char.isDigit) :=
    fun c hc => hs c ((List.dropWhile_sublist _).subset hc)
  exact ⟨sign, s.takeWhile Char.isDigit, s.dropWhile Char.isDigit,
    by rw [List.takeWhile_append_dropWhile], hsign, isDigits_takeWhile h.1, of_isEnd h.2 hend⟩

-- On a single line, no line feed follows.
theorem of_isNumberText {v : String} (h : isNumberText v) (hv : OneLine v) : IsNumber v.toList := by
  unfold isNumberText at h
  split at h
  case h_1 s hs =>
    have hflat : Flat ('-' :: s) := hs ▸ hv
    rw [hs]
    exact of_isUnsigned ['-'] (.inr rfl) h (flat_cons.mp hflat).2
  case h_2 => exact of_isUnsigned [] (.inl rfl) h hv

end IsNumber

-- A flag has no default.
theorem Param.default_of_not_misvalued {p : Param} {d : String} (h : ¬ p.Misvalued)
    (hd : p.default = some d) :
    (p.choices ≠ [] → d ∈ p.choices) ∧ (p.valueHint = .number → isNumberText d) := by
  have hk : p.isFlag = false := by
    by_contra hk
    exact h (.flagDefault (by simpa using hk) (by simp [hasDefault, hd]))
  constructor
  · intro hc
    by_contra hn
    exact h (.defaultNoChoice hk hd hc hn)
  · intro hh
    by_contra hn
    exact h (.defaultNoNumber hk hd hh (by simpa using hn))

namespace Routine

open Shell

-- The words of a check that lets its value pass: the value is in the list after it, or it is a
-- number.
inductive Passes : List String → Prop
  | choice (h : value ∈ items) : Passes ("_argsh_check_choice" :: label :: value :: items)
  | number (h : IsNumber value.toList) : Passes ["_argsh_check_number", label, value]

variable {p : Param} {stem command d : String} {l : Line} {value : String → String}

theorem not_startsWith_append {s t start : String} (h : startsWith start s = false)
    (hl : s.toList.length ≤ start.toList.length) : startsWith (s ++ t) start = false := by
  by_contra hs
  have hstart : start.toList <+: (s ++ t).toList := startsWith_iff.mp (by simpa using hs)
  have hprefix : s.toList <+: (s ++ t).toList := by simp
  have := startsWith_iff.mpr (List.prefix_of_prefix_length_le hprefix hstart hl)
  simp [h] at this

theorem written_assignLine {target : String} {v : Assigned} :
    (assignLine target v).statement.written = target ++ ("=" ++ v.written) :=
  String.append_assoc

theorem written_overArray {element array : String} :
    (Statement.overArray element array).written = "for " ++ (element ++ (" in " ++
      (expand (array ++ "[@]+" ++ expandQuoted (array ++ "[@]")) ++ "; do"))) := by
  simp only [← String.append_assoc]
  rfl

-- A check, the label of its parameter, the value and other words.
theorem words?_check {check : String} (hcheck : Reads value check.toList check.toList)
    {us ws : List String} (hrest : List.Forall₂ (fun u w => Reads value u.toList w.toList) us ws) :
    words? value (" ".intercalate (check :: quote label :: doubleQuoted ("$" ++ valueVar) :: us)) =
      some (check :: label :: value valueVar :: ws) :=
  words?_intercalate
    (.cons hcheck (.cons (reads_quote label) (.cons (reads_variable (by decide)) hrest)))

theorem words?_checkChoice {items : List String} (h : items ≠ []) :
    words? value ("_argsh_check_choice " ++ quote label ++ " " ++ doubleQuoted ("$" ++ valueVar) ++
        " " ++ " ".intercalate (items.map quote)) =
      some ("_argsh_check_choice" :: label :: value valueVar :: items) := by
  have hcheck : Reads value "_argsh_check_choice".toList "_argsh_check_choice".toList :=
    reads_plain (by decide) (by decide)
  have hitems : List.Forall₂ (fun u w => Reads value u.toList w.toList) (items.map quote) items :=
    List.forall₂_map_left_iff.mpr (List.forall₂_same.mpr fun item _ => reads_quote item)
  rw [← words?_check hcheck hitems, String.intercalate_cons_cons, String.intercalate_cons_cons,
    String.intercalate_cons_of_ne_nil (by simpa using h)]
  simp only [← String.append_assoc]
  rfl

theorem words?_checkNumber :
    words? value ("_argsh_check_number " ++ quote label ++ " " ++ doubleQuoted ("$" ++ valueVar)) =
      some ["_argsh_check_number", label, value valueVar] := by
  have hcheck : Reads value "_argsh_check_number".toList "_argsh_check_number".toList :=
    reads_plain (by decide) (by decide)
  rw [← words?_check hcheck .nil, String.intercalate_cons_cons, String.intercalate_cons_cons,
    String.intercalate_singleton]
  simp only [← String.append_assoc]
  rfl

theorem passes_of_mem_checkCommands (hc : p.choices ≠ [] → value valueVar ∈ p.choices)
    (hn : p.valueHint = .number → IsNumber (value valueVar).toList) (h : command ∈ checkCommands p) :
    startsWith command "_argsh_check_fn_choice " ∨
      ∃ ws, words? value command = some ws ∧ Passes ws := by
  simp only [checkCommands, List.mem_append] at h
  rcases h with h | h
  case inl =>
    split at h
    case isTrue hne =>
      have hne : p.choices ≠ [] := by simpa using hne
      rw [List.mem_singleton.mp h]
      exact .inr ⟨_, words?_checkChoice hne, .choice (hc hne)⟩
    case isFalse =>
      split at h
      case h_1 =>
        rw [List.mem_singleton.mp h]
        simp only [String.append_assoc]
        exact .inl (startsWith_append _ _)
      case h_2 => cases h
  case inr =>
    split at h
    case isTrue hh =>
      rw [List.mem_singleton.mp h]
      exact .inr ⟨_, words?_checkNumber, .number (hn hh)⟩
    case isFalse => cases h

-- The other lines of a block of checks call none.
theorem mem_checkCommands_of_mem_valueChecks (h : l ∈ valueChecks p stem)
    (hs : startsWith l.statement.written "_argsh_check_") :
    l.statement.written ∈ checkCommands p := by
  have hcheck (h : l ∈ indent ((checkCommands p).map line)) :
      l.statement.written ∈ checkCommands p := by
    obtain ⟨_, hl, rfl⟩ := List.mem_map.mp h
    obtain ⟨command, hcommand, rfl⟩ := List.mem_map.mp hl
    exact hcommand
  have hother {s t : String} (hl : l.statement.written = s ++ t)
      (h : startsWith "_argsh_check_" s = false) (hlen : s.toList.length ≤ 13) :
      l.statement.written ∈ checkCommands p := by
    cases (not_startsWith_append h hlen).symm.trans (hl ▸ hs)
  simp only [valueChecks] at h
  split at h
  case isTrue => cases h
  case isFalse =>
    split at h
    case isTrue =>
      simp only [List.mem_append, List.mem_singleton] at h
      rcases h with (rfl | h) | rfl
      · exact hother written_overArray (by decide) (by decide)
      · exact hcheck h
      · exact hother (t := "") String.append_empty.symm (by decide) (by decide)
    case isFalse =>
      simp only [conditional, indent, List.map_cons, List.mem_append, List.mem_cons,
        List.not_mem_nil, or_false] at h
      rcases h with (rfl | rfl | h) | rfl
      · exact hother (s := "if ") String.append_assoc (by decide) (by decide)
      · exact hother written_assignLine (by decide) (by decide)
      · exact hcheck h
      · exact hother (t := "") String.append_empty.symm (by decide) (by decide)

-- The default of a parameter of an accepted script passes each check that is made of the values
-- of the parameter, apart from a comparison with what a function lists. It is one of the choices
-- if there are any, and it is a number as a whole if it has to be one.
theorem check_defaults {text : String} {r : Report} (h : check text = .ok r) (ho : r.ok) :
    ∀ c ∈ r.tree.nodes, ∀ p ∈ c.params, ∀ d, p.default = some d →
      (p.choices ≠ [] → d ∈ p.choices) ∧ (p.valueHint = .number → IsNumber d.toList) ∧
      ∀ stem, ∀ l ∈ valueChecks p stem, startsWith l.statement.written "_argsh_check_" →
        startsWith l.statement.written "_argsh_check_fn_choice " ∨
          ∀ value : String → String, value valueVar = d →
            ∃ ws, words? value l.statement.written = some ws ∧ Passes ws := by
  intro c hc p hp d hd
  obtain ⟨_, _, haccepted⟩ := accepted_of_check h ho
  have hvalued : ¬ p.Misvalued := fun hm => haccepted.not_breaks hc (.value hp hm)
  have hline : OneLine d := ((flat_of_check h c hc).params p hp).default d hd
  have ⟨hchoice, hnumber⟩ := p.default_of_not_misvalued hvalued hd
  have hnumber : p.valueHint = .number → IsNumber d.toList :=
    fun hh => .of_isNumberText (hnumber hh) hline
  refine ⟨hchoice, hnumber, fun stem l hl hs => ?_⟩
  have hmem := mem_checkCommands_of_mem_valueChecks hl hs
  by_cases hfn : startsWith l.statement.written "_argsh_check_fn_choice "
  case pos => exact .inl hfn
  case neg =>
    refine .inr fun value hvalue => ?_
    subst hvalue
    exact (passes_of_mem_checkCommands hchoice hnumber hmem).resolve_left hfn

-- A count that has to be one of two values, the first of which it has by default.
theorem check_defaults_count : ∃ r, check "# @option -n --count[=5|'1 0'] <NUM>\n" = .ok r ∧ r.ok ∧
    ∃ c ∈ r.tree.nodes, ∃ p ∈ c.params, p.default = some "5" ∧ "5" ∈ p.choices ∧
      IsNumber "5".toList ∧
      ∃ l ∈ valueChecks p "argsh",
        l.statement.written = "_argsh_check_choice '--count <NUM>' \"$_argsh_value\" 5 '1 0'" ∧
        ∃ ws, words? (fun _ => "5") l.statement.written = some ws ∧ Passes ws := by
  have he : (check "# @option -n --count[=5|'1 0'] <NUM>\n").toOption.map
      (fun r => (r.ok, r.tree.nodes.map (·.params.map fun p =>
        (decide (p.default = some "5" ∧ p.choices ≠ [] ∧ p.valueHint = .number),
          (valueChecks p "argsh")[2]?.map (·.statement.written))))) =
            some (true, [[(true,
              some "_argsh_check_choice '--count <NUM>' \"$_argsh_value\" 5 '1 0'")]]) := by
    decide +kernel
  obtain ⟨r, hr, he⟩ := Option.map_eq_some_iff.mp he
  obtain ⟨ho, hnodes⟩ := Prod.mk.inj he
  obtain ⟨c, hc, hparams⟩ := List.mem_map.mp (hnodes ▸ List.mem_cons_self)
  obtain ⟨p, hp, hparam⟩ := List.mem_map.mp (hparams ▸ List.mem_cons_self)
  obtain ⟨hdeclared, hl⟩ := Prod.mk.inj hparam
  obtain ⟨hd, hne, hhint⟩ := of_decide_eq_true hdeclared
  obtain ⟨l, hl, hwritten⟩ := Option.map_eq_some_iff.mp hl
  have hl := List.mem_of_getElem? hl
  have hr := Outcome.eq_ok_of_toOption hr
  have ⟨hchoice, hnumber, hchecks⟩ := check_defaults hr ho c hc p hp "5" hd
  have hpasses := (hchecks "argsh" l hl (by rw [hwritten]; decide)).resolve_left
    (by rw [hwritten]; decide)
  exact ⟨r, hr, ho, c, hc, p, hp, hd, hchoice hne, hnumber hhint, l, hl, hwritten, hpasses _ rfl⟩

end Routine

end ShellArgs
