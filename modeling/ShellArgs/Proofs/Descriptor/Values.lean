import ShellArgs.Proofs.Descriptor.Written

namespace ShellArgs.Descriptor.Rule

variable {s t : List Char} {p : Param} {n : Nat}

theorem parses_eat_mark {c : Char} {b : Bool} (h : b = false → s.head? ≠ some c) :
    (eat c).Parses (mark c b ++ s) b s := by
  cases b
  case true  => exact parses_eat
  case false => exact parses_eat_false (h rfl)

theorem closeQuote?_escape (q : Quote) :
    closeQuote? q.char (escape q.char s ++ q.char :: t) = some (s, t) := by
  have hq : q.char ≠ '\\' := by cases q <;> decide
  induction s
  case nil =>
    rw [escape, List.flatMap_nil, List.nil_append, closeQuote?.eq_def]
    simp [hq]
  case cons c s hi =>
    rw [escape, List.flatMap_cons, List.append_assoc, ← escape]
    by_cases hc : c = q.char ∨ c = '\\'
    case pos => simp [hc, closeQuote?, hi]
    case neg =>
      simp only [hc, if_false, List.cons_append, List.nil_append]
      rw [closeQuote?.eq_def]
      simp_all

theorem closeAngle?_balanced {depth : Nat} (h : isBalanced depth s) :
    closeAngle? depth (s ++ '>' :: t) = some (s, t) := by
  induction s generalizing depth
  case nil =>
    have hd : depth = 0 := by simpa [isBalanced] using h
    simp [closeAngle?, hd]
  case cons c s hi =>
    unfold isBalanced at h
    rw [List.cons_append, closeAngle?.eq_def]
    split at h
    case isTrue ho => simp [ho, hi h]
    case isFalse ho =>
      split at h
      case isFalse hc => simp [ho, hc, hi h]
      case isTrue hc =>
        cases depth
        case zero   => cases h
        case succ n => simp [hc, hi h]

theorem name_parses (w : Word isNameChar) (ht : Opens (isNameChar · = false) t) :
    name.Parses (w.chars ++ t) (String.ofList w.chars) t := by
  refine parses_bind (parses_takeWhile w.all ht) ?_
  split
  case h_1 h => exact absurd h w.ne
  case h_2   => exact parses_pure

theorem quoted_parses (q : Quoted) :
    (quoted q.quote.char).Parses (q.written ++ t) (String.ofList q.text) t := by
  refine parses_bind parses_drop (parses_bind (parses_ofText ?_) parses_pure)
  simpa [Quoted.written] using closeQuote?_escape q.quote

theorem functionName_parses (fn : Word Shell.isFunctionChar) :
    functionName.Parses ('\x60' :: (fn.chars ++ '\x60' :: t)) (String.ofList fn.chars) t := by
  have hend : Shell.isFunctionChar '\x60' = false := by decide
  refine parses_bind parses_expect (parses_bind (parses_takeWhile fn.all (Opens.cons.mpr hend)) ?_)
  split
  case h_1 h => exact absurd h fn.ne
  case h_2   => exact parses_bind parses_expect parses_pure

theorem defaultValue_parses (d : Default)
    (ht : d.isBare → Opens (fun c => Text.isBlank c ∨ c = '[') t) :
    (defaultValue p).Parses (d.written ++ t) (d.declare p) t := by
  cases d
  case quoted q =>
    have hq := quoted_parses q (t := t)
    refine parses_bind parses_expect (parses_bind parses_peek ?_)
    obtain ⟨quote, text, line⟩ := q
    cases quote
    case single => exact parses_bind hq parses_pure
    case double => exact parses_bind hq parses_pure
  case function fn =>
    simp only [Default.written, List.cons_append, List.append_assoc, List.nil_append]
    refine parses_bind parses_expect (parses_bind parses_peek ?_)
    exact parses_bind (functionName_parses fn) parses_pure
  case bare text plain start =>
    have ht := ht rfl
    have hopens : Opens (· ∉ ['\x60', '\'', '"']) (text ++ t) :=
      start.append fun _ => ht.not_mem (by decide)
    refine parses_bind parses_expect (parses_bind parses_peek ?_)
    split
    case h_1 h => exact absurd h (hopens.head?_ne (by decide))
    case h_2 h => exact absurd h (hopens.head?_ne (by decide))
    case h_3 h => exact absurd h (hopens.head?_ne (by decide))
    case h_4 =>
      refine parses_bind (parses_takeWhile ?_ ?_) parses_pure
      · simpa using plain
      · exact ht.mono fun c hc => by simpa [imp_iff_not_or] using hc

theorem choice_parses (c : ChoiceText) (ht : Opens (fun c => c = '|' ∨ c = ']') t) :
    choice.Parses (c.written ++ t) (String.ofList c.text) t := by
  cases c
  case quoted q =>
    have hq := quoted_parses q (t := t)
    refine parses_bind parses_peek ?_
    obtain ⟨quote, text, line⟩ := q
    cases quote
    case single => exact hq
    case double => exact hq
  case bare text plain start =>
    have hopens : Opens (· ∉ ['=', '\x60', '\'', '"']) (text ++ t) :=
      start.append fun _ => ht.not_mem (by decide)
    refine parses_bind parses_peek ?_
    split
    case h_1 h => exact absurd h (hopens.head?_ne (by decide))
    case h_2 h => exact absurd h (hopens.head?_ne (by decide))
    case h_3 h => exact absurd h (hopens.head?_ne (by decide))
    case h_4 h => exact absurd h (hopens.head?_ne (by decide))
    case h_5 =>
      refine parses_bind (parses_takeWhile ?_ ?_) parses_pure
      · intro c hc
        have := plain c hc
        simp_all
      · refine ht.mono ?_
        rintro c (rfl | rfl)
        all_goals decide

-- Each part takes at least one character, so there is room for all of them.
theorem length_le_flatMap {α : Type} {f : α → List Char} (xs : List α) (hf : ∀ x, f x ≠ []) :
    xs.length ≤ (xs.flatMap f ++ t).length := by
  induction xs
  case nil => exact Nat.zero_le _
  case cons x xs hi =>
    have := List.length_pos_iff.mpr (hf x)
    rw [List.flatMap_cons, List.append_assoc, List.length_append, List.length_cons]
    omega

theorem moreChoices_parses {cs : List ChoiceText} (hn : cs.length ≤ n) :
    (moreChoices n).Parses (cs.flatMap ChoiceText.barred ++ ']' :: t)
      (cs.map (String.ofList ·.text)) (']' :: t) := by
  induction cs generalizing n
  case nil =>
    cases n
    case zero => exact parses_pure
    case succ => exact parses_bind (parses_eat_false (by simp)) parses_pure
  case cons c cs hi =>
    cases n
    case zero => simp at hn
    case succ n =>
      rw [List.flatMap_cons, List.append_assoc]
      refine parses_bind parses_eat (parses_bind (choice_parses c (ChoiceText.opens_barred cs)) ?_)
      exact parses_bind (hi (by simpa using hn)) parses_pure

theorem startsFunction_eq_false_iff : startsFunction s = false ↔
    s.head? ≠ some '\x60' ∧ ¬['?', '\x60'] <+: s := by
  unfold startsFunction
  split
  case h_1 => simp
  case h_2 => simp
  case h_3 h₁ h₂ =>
    refine iff_of_true rfl ⟨?_, fun ⟨u, hu⟩ => h₂ u hu.symm⟩
    cases s
    case nil => simp
    case cons c u => exact fun h => h₁ u (by simpa using h)

theorem startsFunction_append (h : startsFunction s = false)
    (ht : Opens (fun c => c = '|' ∨ c = ']') t) : startsFunction (s ++ t) = false := by
  cases t
  case nil => simpa using h
  case cons c t =>
    have ⟨hh, hp⟩ := startsFunction_eq_false_iff.mp h
    refine startsFunction_eq_false_iff.mpr ?_
    obtain rfl | rfl := Opens.cons.mp ht
    all_goals match s with
      | []          => simp
      | [_]         => simpa using hh
      | _ :: _ :: _ => exact ⟨hh, by simpa using hp⟩

theorem choices_parses (c : Choices) :
    (choices p).Parses (c.written ++ t) (c.declare p, c.isMarked) t := by
  cases c
  case function fn unchecked =>
    have hstart : ∀ s, startsFunction (mark '?' unchecked ++ '\x60' :: s) := by
      cases unchecked <;> exact fun _ => rfl
    simp only [Choices.written, List.append_assoc, List.cons_append, List.nil_append]
    refine parses_bind parses_expect (parses_bind parses_rest ?_)
    rw [if_pos (hstart _)]
    refine parses_bind (parses_eat_mark (by simp)) (parses_bind (functionName_parses fn) ?_)
    exact parses_bind parses_expect parses_pure
  case texts marked first more start =>
    have ht := ChoiceText.opens_barred more (t := t)
    have hmore := length_le_flatMap more (f := ChoiceText.barred) (t := ']' :: t)
      (by simp [ChoiceText.barred])
    have hfirst := first.opens.append fun _ => ht.not_mem (by decide)
    have hstart : startsFunction (mark '=' marked ++
        (first.written ++ (more.flatMap ChoiceText.barred ++ ']' :: t))) = false := by
      cases marked
      case true  => rfl
      case false => exact startsFunction_append (s := first.written) (start rfl) ht
    simp only [Choices.written, List.append_assoc, List.cons_append, List.nil_append]
    refine parses_bind parses_expect (parses_bind parses_rest ?_)
    rw [if_neg (by simp [hstart])]
    refine parses_bind (parses_eat_mark fun _ => hfirst.head?_ne (by decide)) ?_
    refine parses_bind (choice_parses first ht) ?_
    refine parses_bind parses_rest (parses_bind (moreChoices_parses hmore) ?_)
    refine parses_bind parses_expect ?_
    cases marked
    case true  => exact parses_pure
    case false => exact parses_pure

section Values

theorem head?_default (d : Default) : (d.written ++ t).head? = some '=' := by
  cases d <;> rfl

theorem head?_choices (c : Choices) : (c.written ++ t).head? = some '[' := by
  cases c <;> rfl

variable {d : Default} {c : Choices}

theorem values_parses_none (h : t.head? ≠ some '=' ∧ t.head? ≠ some '[') :
    (values p).Parses t p t := by
  refine parses_bind parses_peek ?_
  split
  case h_1 he => exact absurd he h.1
  case h_2 he => exact absurd he h.2
  case h_3    => exact parses_pure

theorem values_parses_default (hd : d.isBare → Opens (fun c => Text.isBlank c ∨ c = '[') t)
    (h : t.head? ≠ some '[') : (values p).Parses (d.written ++ t) (d.declare p) t := by
  refine parses_bind parses_peek ?_
  rw [head?_default]
  refine parses_bind (defaultValue_parses d hd) (parses_bind parses_peek ?_)
  rw [if_neg (by simpa using h)]
  exact parses_pure

theorem values_parses_choices (h : t.head? ≠ some '=') :
    (values p).Parses (c.written ++ t) (c.declare p) t := by
  refine parses_bind parses_peek ?_
  rw [head?_choices]
  refine parses_bind (choices_parses c) (parses_bind parses_peek ?_)
  rw [if_neg (by simp [h])]
  exact parses_pure

theorem values_parses_defaultChoices (hm : c.isMarked = false) :
    (values p).Parses (d.written ++ (c.written ++ t)) (c.declare (d.declare p)) t := by
  have hd : Opens (fun c => Text.isBlank c ∨ c = '[') (c.written ++ t) := by
    intro e he
    rw [head?_choices] at he
    exact .inr (Option.some.inj he).symm
  refine parses_bind parses_peek ?_
  rw [head?_default]
  refine parses_bind (defaultValue_parses d fun _ => hd) (parses_bind parses_peek ?_)
  rw [head?_choices, if_pos (by decide)]
  refine parses_bind (choices_parses c) ?_
  simp only [hm]
  exact parses_pure

theorem values_parses_choicesDefault (hm : c.isMarked = false)
    (hd : d.isBare → Opens (fun c => Text.isBlank c ∨ c = '[') t) :
    (values p).Parses (c.written ++ (d.written ++ t)) (d.declare (c.declare p)) t := by
  refine parses_bind parses_peek ?_
  rw [head?_choices]
  refine parses_bind (choices_parses c) (parses_bind parses_peek ?_)
  rw [head?_default, hm, if_pos (by decide)]
  exact defaultValue_parses d hd

theorem values_parses (v : Values) (ht : Opens (fun c => Text.isBlank c ∨ c = '<') t)
    (hb : v.endsBare → Opens (Text.isBlank ·) t) :
    (values p).Parses (v.written ++ t) (v.declare p) t := by
  have hne : t.head? ≠ some '=' ∧ t.head? ≠ some '[' :=
    ⟨ht.head?_ne (by decide), ht.head?_ne (by decide)⟩
  have hlast : v.endsBare → Opens (fun c => Text.isBlank c ∨ c = '[') t :=
    fun h => (hb h).mono fun _ => .inl
  obtain ⟨default, choices, choicesFirst, single⟩ := v
  cases default <;> cases choices
  case none.none =>
    have hw : Values.written ⟨none, none, choicesFirst, single⟩ = [] := by simp [Values.written]
    rw [hw]
    exact values_parses_none hne
  case some.none d =>
    have hw : Values.written ⟨some d, none, choicesFirst, single⟩ = d.written := by
      simp [Values.written]
    rw [hw]
    exact values_parses_default (fun hd => hlast (by simp [Values.endsBare, hd])) hne.2
  case none.some c =>
    have hw : Values.written ⟨none, some c, choicesFirst, single⟩ = c.written := by
      simp [Values.written]
    rw [hw]
    exact values_parses_choices hne.1
  case some.some d c =>
    have hm : c.isMarked = false := by
      by_contra hm
      cases single c rfl (by simpa using hm)
    cases choicesFirst
    case true =>
      have hw : Values.written ⟨some d, some c, true, single⟩ ++ t = c.written ++ (d.written ++ t) :=
        List.append_assoc ..
      rw [hw, Values.declare, Option.elim_some, Option.elim_some, ← Choices.declare_comm hm]
      exact values_parses_choicesDefault hm fun hd => hlast (by simp [Values.endsBare, hd])
    case false =>
      have hw : Values.written ⟨some d, some c, false, single⟩ ++ t = d.written ++ (c.written ++ t) :=
        List.append_assoc ..
      rw [hw]
      exact values_parses_defaultChoices hm

end Values

theorem marker_parses (m : Marker) (ht : Opens (· ∉ ['!', '*', '+']) t) :
    (marker p).Parses (m.written ++ t) (m.declare p) t := by
  refine parses_bind parses_peek ?_
  cases m
  case required         => exact parses_bind parses_drop parses_pure
  case variadic         => exact parses_bind parses_drop parses_pure
  case variadicRequired => exact parses_bind parses_drop parses_pure
  case none =>
    split
    case h_1 h => exact absurd h (ht.head?_ne (by decide))
    case h_2 h => exact absurd h (ht.head?_ne (by decide))
    case h_3 h => exact absurd h (ht.head?_ne (by decide))
    case h_4   => exact parses_pure

theorem spaces_parses (hs : ∀ c ∈ s, isSpace c) (ht : Opens (isSpace · = false) t) :
    spaces.Parses (s ++ t) s.length t :=
  parses_bind (parses_takeWhile hs ht) parses_pure

theorem valueNames_parses {ns : List ValueName} (hn : ns.length ≤ n)
    (ht : ns.length < n → (t.dropWhile isSpace).head? ≠ some '<') :
    (valueNames n).Parses (ns.flatMap ValueName.written ++ t) (ns.map (String.ofList ·.text)) t := by
  induction ns generalizing n
  case nil =>
    cases n
    case zero => exact parses_pure
    case succ =>
      refine parses_bind parses_rest ?_
      rw [if_neg (by simpa using ht)]
      exact parses_pure
  case cons m ns hi =>
    cases n
    case zero => simp at hn
    case succ n =>
      have hlt : isSpace '<' = false := by decide
      have hangle := closeAngle?_balanced m.balanced (t := ns.flatMap ValueName.written ++ t)
      simp only [List.flatMap_cons, ValueName.written, List.append_assoc, List.cons_append,
        List.nil_append]
      refine parses_bind parses_rest ?_
      rw [if_pos (by simp [List.dropWhile_append_of_pos m.isGap, hlt])]
      refine parses_bind (spaces_parses m.isGap (Opens.cons.mpr hlt)) (parses_bind parses_drop ?_)
      refine parses_bind (parses_ofText hangle) ?_
      exact parses_bind (hi (by simpa using hn) (by simpa using ht)) parses_pure

end ShellArgs.Descriptor.Rule
