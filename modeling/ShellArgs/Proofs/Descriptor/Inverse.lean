import Mathlib.Data.List.Basic
import ShellArgs.Proofs.Descriptor.Forms
import ShellArgs.Proofs.Descriptor.Values

namespace ShellArgs.Descriptor

namespace Rule

variable {k : ParamKind} {s t : List Char} {c : Char} {p q : Param} {short : Option String}

section Ending

theorem environment_parses (v : Variable) (ht : Opens (Text.isBlank ·) t) :
    (environment p).Parses (v.written ++ t) { p with envVar := some (String.ofList v.name) } t := by
  have hd : isSpace '$' = false := by decide
  have hn := isName_chars v.isName
  have hh : (v.name ++ t).head?.any Shell.isNameStart := by
    cases hs : v.name <;> simp_all
  have hnt : Opens (Shell.isNameChar · = false) t := by
    refine ht.mono fun c hc => ?_
    by_contra hn
    have := isNameChar_of_shell (by simpa using hn)
    simp [isNameChar_of_isBlank hc] at this
  simp only [Variable.written, List.append_assoc, List.cons_append]
  refine parses_bind parses_rest ?_
  rw [if_pos (by rw [v.gap.head?_any, List.dropWhile_append_of_pos v.gap.all]; simp [hd])]
  refine parses_bind (spaces_parses v.gap.all (Opens.cons.mpr hd)) (parses_bind parses_drop ?_)
  refine parses_bind parses_peek ?_
  rw [List.drop_succ_cons, List.drop_zero, if_pos hh]
  refine parses_bind (parses_takeWhile hn.2 hnt) (parses_bind parses_peek ?_)
  rw [if_pos ?_]
  · exact parses_pure
  · cases t
    case nil => rfl
    case cons => exact Opens.cons.mp ht

theorem environment_parses_none (h : (s.dropWhile isSpace).head? ≠ some '$') :
    (environment p).Parses s p s := by
  refine parses_bind parses_rest ?_
  rw [if_neg (by simp [h])]
  exact parses_pure

theorem tail_parses (hs : Opens (Text.isBlank ·) s) :
    tail.Parses s (String.ofList (Text.trim s)) [] := by
  refine parses_bind parses_rest ?_
  cases s
  case nil => exact parses_pure
  case cons c s =>
    change Parses (if Text.isBlank c then _ else _) _ _ _
    rw [if_pos (Opens.cons.mp hs)]
    refine parses_bind parses_drop ?_
    rw [List.drop_length]
    exact parses_pure

-- What all descriptors end with.
def ending (p : Param) : Rule Param := do
  let p ← environment p
  return { p with help := ← tail }

theorem ending_parses (e : Ending) : (ending p).Parses e.written (e.declare p) [] := by
  have htail := tail_parses e.opens_help
  have hopens := e.opens_help
  rw [e.trim_help] at htail
  obtain ⟨env, blanks, areBlanks, help, trimmed, apart, line, noVariable⟩ := e
  cases env
  case none =>
    exact parses_bind (environment_parses_none (noVariable rfl)) (parses_bind htail parses_pure)
  case some v => exact parses_bind (environment_parses v hopens) (parses_bind htail parses_pure)

end Ending

section Body

theorem afterForms_parses (b : Body) (hp : p.isFlag = false) (hc : b.Closed) :
    (afterForms p).Parses b.written (b.declare p) [] := by
  have hlen := length_le_flatMap b.names (f := ValueName.written) (t := b.ending.written)
    (by simp [ValueName.written])
  unfold afterForms
  rw [hp, if_neg (by decide)]
  refine parses_bind (marker_parses b.marker b.opens_values) ?_
  refine parses_bind (values_parses b.values b.opens_names b.opens_blank) ?_
  refine parses_bind parses_rest (parses_bind (valueNames_parses hlen fun _ => hc) ?_)
  exact parses_bind parses_pure (ending_parses b.ending)

theorem afterForms_parses_flag (b : FlagBody) (hp : p.isFlag) :
    (afterForms p).Parses b.written (b.declare p) [] := by
  have hne : b.ending.written.head? ≠ some '*' := b.ending.opens.head?_ne (by decide)
  unfold afterForms
  rw [hp, if_pos rfl]
  refine parses_bind (parses_eat_mark fun _ => hne) ?_
  exact parses_bind parses_pure (ending_parses b.ending)

theorem positional_parses (n : PositionalName) (b : Body) (hl : b.names.length ≤ 1)
    (hc : b.names = [] → b.Closed) :
    positional.Parses (n.written ++ b.written) (b.declare n.param) [] := by
  have hbody : ∀ p : Param, (do
      let p ← values (← marker p)
      let p := { p with valueNames := ← valueNames 1 }
      ending p).Parses b.written (b.declare p) [] := by
    intro p
    refine parses_bind (marker_parses b.marker b.opens_values) ?_
    refine parses_bind (values_parses b.values b.opens_names b.opens_blank) ?_
    refine parses_bind (valueNames_parses hl fun h => hc ?_) (ending_parses b.ending)
    exact List.length_eq_zero_iff.mp (by omega)
  cases n
  case bare n =>
    have hname : Opens (isNameChar ·) (n.chars ++ b.written) := n.opens fun _ => id
    refine parses_bind (parses_eat_false (hname.head?_ne (by decide))) ?_
    refine parses_bind (parses_eat_false (hname.head?_ne (by decide))) ?_
    exact parses_bind (name_parses n b.opens) (parses_bind parses_pure (hbody _))
  case angled n =>
    have hname := name_parses n (t := '>' :: b.written) (Opens.cons.mpr (by decide))
    rw [PositionalName.written, List.cons_append, List.append_assoc]
    refine parses_bind parses_eat (parses_bind hname (parses_bind parses_expect ?_))
    exact parses_bind parses_pure (hbody _)
  case bracketed n =>
    have hname := name_parses n (t := ']' :: b.written) (Opens.cons.mpr (by decide))
    rw [PositionalName.written, List.cons_append, List.append_assoc]
    refine parses_bind (parses_eat_false (by simp)) (parses_bind parses_eat ?_)
    refine parses_bind hname (parses_bind parses_expect ?_)
    exact parses_bind parses_pure (hbody _)

end Body

section Forms

theorem name_refuses (h : s.head?.any isNameChar = false) : name.Refuses s := by
  refine refuses_bind (parses_takeWhile (s := []) (by simp) fun c hc => ?_) refuses_fail
  simp_all

theorem shortBeforeLong_parses (hc : isShortChar c) (ht : t.head?.any isSpace) :
    shortBeforeLong.Parses ('-' :: c :: t) (String.ofList ['-', c]) t := by
  refine parses_bind parses_expect (parses_bind parses_peek ?_)
  simp only [List.head?_cons]
  rw [if_pos hc]
  refine parses_bind parses_drop (parses_bind parses_peek ?_)
  rw [List.drop_succ_cons, List.drop_zero, if_pos ht]
  exact parses_pure

theorem shortBeforeLong_refuses (ht : isShortChar c → t.head?.any isSpace = false) :
    shortBeforeLong.Refuses ('-' :: c :: t) := by
  refine refuses_bind parses_expect (refuses_bind parses_peek ?_)
  simp only [List.head?_cons]
  split
  case isFalse => exact refuses_fail
  case isTrue hc =>
    refine refuses_bind parses_drop (refuses_bind parses_peek ?_)
    rw [List.drop_succ_cons, List.drop_zero, ht hc, if_neg (by decide)]
    exact refuses_fail

theorem afterDash_parses (l : LongForm) (hs : Opens (isNameChar · = false) s)
    (hl : l.double = false → short = none → 2 ≤ l.name.chars.length)
    (h : (afterForms (l.param k short)).Parses s q []) :
    (afterDash k short).Parses (l.rest ++ s) q [] := by
  rw [LongForm.rest, List.append_assoc]
  refine parses_bind (parses_eat_mark ?start) (parses_bind (name_parses l.name hs) ?_)
  case start =>
    rw [List.head?_append_of_ne_nil _ l.name.ne]
    exact l.start
  rw [if_neg ?_, ← l.ofList_written]
  · exact h
  · simp only [Bool.and_eq_true, Bool.not_eq_true', beq_iff_eq, Option.isNone_iff_eq_none,
      String.toList_ofList]
    rintro ⟨⟨hd, hlen⟩, hs⟩
    have := hl hd hs
    omega

-- Nothing is declared by one or two dashes without a name.
theorem afterDash_refuses (h : startsLong ('-' :: s) = false) : (afterDash k short).Refuses s := by
  by_cases hd : s.head? = some '-'
  case pos =>
    obtain ⟨s, rfl⟩ := List.head?_eq_some_iff.mp hd
    exact refuses_bind parses_eat (Refuses.bind (name_refuses h))
  case neg =>
    rw [startsLong_dash hd] at h
    exact refuses_bind (parses_eat_false hd) (Refuses.bind (name_refuses h))

section WithLong

-- `g` stands between a short form and the long one.
variable {g : List Char}

theorem withLong_parses (hshort : shortBeforeLong.attempt.Parses s short (g ++ '-' :: t))
    (hgap : ∀ c ∈ g, isSpace c) (h : (afterDash k short).Parses t q []) :
    (withLong k).Parses s q [] := by
  refine parses_bind hshort (parses_bind (spaces_parses hgap ?_) (parses_bind parses_eat h))
  exact Opens.cons.mpr (by decide)

theorem withLong_refuses (hshort : shortBeforeLong.attempt.Parses s short (g ++ t))
    (hgap : ∀ c ∈ g, isSpace c) (ht : Opens (isSpace · = false) t) (h : startsLong t = false) :
    (withLong k).Refuses s := by
  refine refuses_bind hshort (refuses_bind (spaces_parses hgap ht) ?_)
  by_cases hd : t.head? = some '-'
  case neg => exact refuses_bind (parses_eat_false hd) (Refuses.bind refuses_fail)
  case pos =>
    obtain ⟨t, rfl⟩ := List.head?_eq_some_iff.mp hd
    exact refuses_bind parses_eat (afterDash_refuses h)

end WithLong

section Short

variable (hk : k ≠ .positional) (hc : isLoneChar k c) (hs : Opens (isNameChar · = false) s)
  (h : (afterForms (shortParam k c)).Parses s q [])

include hs h

theorem afterDash_parses_short (hd : c ≠ '-') (hn : isNameChar c) :
    (afterDash k none).Parses (c :: s) q [] := by
  let w : Word isNameChar := ⟨[c], by simpa using hn, by simp⟩
  have hp : { name := String.ofList w.chars, kind := k, short := some ("-" ++ String.ofList w.chars) } =
      shortParam k c := by
    simp [shortParam, w]
  refine parses_bind (parses_eat_false (by simpa using hd)) (parses_bind (name_parses w hs) ?_)
  rw [if_pos (by simp [w])]
  simp only [Bool.false_eq_true, if_false, hp]
  exact h

include hk hc

theorem shortAlone_parses : (shortAlone k).Parses ('-' :: c :: s) q [] := by
  have hdeclare : (shortAlone.declare k c).Parses (c :: s) q [] := parses_bind parses_drop h
  refine parses_bind (spaces_parses (s := []) (by simp) (Opens.cons.mpr (by decide))) ?_
  refine parses_bind parses_expect (parses_bind parses_rest ?_)
  simp only [List.head?_cons, List.drop_succ_cons, List.drop_zero]
  cases k
  case positional => cases hk rfl
  case flag =>
    have hc : isShortChar c := hc
    rw [if_pos (by decide), if_pos hc]
    exact hdeclare
  case option =>
    have hne : s.head?.any isNameChar = false := by
      cases s
      case nil  => rfl
      case cons => exact Opens.cons.mp hs
    have hc : isLoneShortChar c := hc
    rw [if_neg (by decide), if_pos (by simp [hc, hne])]
    exact hdeclare

-- A single character after a dash is read in one way or another, with the same result.
theorem short_parses (hl : startsLong (s.dropWhile isSpace) = false) :
    ((withLong k).orElse (shortAlone k)).Parses ('-' :: c :: s) q [] := by
  have hshort := isShortChar_of_isLoneChar hc
  have hdash := ne_dash_of_isShortChar hshort
  cases hspace : s.head?.any isSpace
  case true =>
    have hopens : Opens (isSpace · = false) (s.dropWhile isSpace) := by
      intro c hc
      have := List.head?_dropWhile_not isSpace s
      rw [show _ = some c from hc] at this
      simpa using this
    have hattempt : shortBeforeLong.attempt.Parses ('-' :: c :: s) (some (String.ofList ['-', c]))
        (s.takeWhile isSpace ++ s.dropWhile isSpace) := by
      rw [List.takeWhile_append_dropWhile]
      exact (shortBeforeLong_parses hshort hspace).attempt
    have hgap : ∀ c ∈ s.takeWhile isSpace, isSpace c := fun c => List.mem_takeWhile_imp
    exact Refuses.orElse (withLong_refuses hattempt hgap hopens hl) (shortAlone_parses hk hc hs h)
  case false =>
    have hattempt := (shortBeforeLong_refuses (c := c) fun _ => hspace).attempt
    by_cases hn : isNameChar c
    case pos =>
      have hlong := afterDash_parses_short hs h hdash hn
      exact Parses.orElse (withLong_parses (g := []) hattempt (by simp) hlong)
    case neg =>
      refine Refuses.orElse ?_ (shortAlone_parses hk hc hs h)
      refine withLong_refuses (g := []) hattempt (by simp) (Opens.cons.mpr (by decide)) ?_
      rw [startsLong_dash (by simpa using hdash)]
      simpa using hn

end Short

theorem shortBeforeLong_refuses_long (l : LongForm)
    (hl : l.double = false → 2 ≤ l.name.chars.length) :
    shortBeforeLong.Refuses ('-' :: (l.rest ++ s)) := by
  obtain ⟨double, ⟨chars, hall, hne⟩, start⟩ := l
  cases double
  case true =>
    have hd : isShortChar '-' = false := by decide
    exact shortBeforeLong_refuses fun h => by simp [hd] at h
  case false =>
    match chars with
    | [] | [_] => simp at hl
    | c :: d :: cs =>
      refine shortBeforeLong_refuses fun _ => ?_
      have hd : isNameChar d := hall d (by simp)
      by_contra hs
      have := isNameChar_of_isBlank (isBlank_of_isSpace (by simpa using hs))
      simp [hd] at this

theorem forms_parses (f : Forms k) (hk : k ≠ .positional) (hf : f.Apart s)
    (hs : Opens (isNameChar · = false) s) (h : (afterForms f.param).Parses s q []) :
    ((withLong k).orElse (shortAlone k)).Parses (f.written ++ s) q [] := by
  cases f
  case short c isLone => exact short_parses hk isLone hs h hf
  case both c isShort gap l =>
    have hattempt := shortBeforeLong_parses isShort (gap.head?_any (s := l.written ++ s))
    have hlong := afterDash_parses l hs (by simp) h
    rw [Forms.written, List.cons_append, List.cons_append, List.append_assoc]
    exact Parses.orElse (withLong_parses hattempt.attempt gap.all hlong)
  case long l isLong =>
    have hattempt := shortBeforeLong_refuses_long (s := s) l isLong
    have hlong := afterDash_parses l hs (fun hd _ => isLong hd) h
    exact Parses.orElse (withLong_parses (g := []) hattempt.attempt (by simp) hlong)

theorem descriptor_parses (n : Notation k) : (descriptor k).Parses n.written n.param [] := by
  cases n
  case option forms body closed apart =>
    have hbody := afterForms_parses body (p := forms.param) (by cases forms <;> rfl) closed
    exact forms_parses forms (by decide) apart body.opens hbody
  case flag forms body apart =>
    have hbody := afterForms_parses_flag body (p := forms.param) (by cases forms <;> rfl)
    exact forms_parses forms (by decide) apart body.opens hbody
  case positional name body single closed => exact positional_parses name body single closed

end Forms

end Rule

theorem joinHelp_of_trim {help : List Char} (h : Text.trim help = help) :
    joinHelp (String.ofList help) "" = String.ofList help := by
  unfold joinHelp
  by_cases he : help = []
  case pos => simpa [he] using h
  case neg => simp [he, h]

theorem Notation.help_param {k : ParamKind} (n : Notation k) :
    ∃ help, n.param.help = String.ofList help ∧ Text.trim help = help := by
  cases n
  case option _ body _ _     => exact ⟨body.ending.help, rfl, body.ending.trimmed⟩
  case flag _ body _         => exact ⟨body.ending.help, rfl, body.ending.trimmed⟩
  case positional _ body _ _ => exact ⟨body.ending.help, rfl, body.ending.trimmed⟩

theorem read_written {k : ParamKind} (n : Notation k) (line : Int) :
    read k (String.ofList n.written) line = .ok { n.param with line } := by
  have hline : ∀ c ∈ n.written, (c != '\n') = true := by
    intro c hc
    simpa using ne_of_mem_of_not_mem hc n.newline_not_mem
  have ⟨r, hr⟩ := Rule.descriptor_parses n ⟨n.written, .descriptor⟩
  have ⟨help, hh, ht⟩ := n.help_param
  simp only [read, String.toList_ofList, List.takeWhile_eq_self_iff.mpr hline,
    List.dropWhile_eq_nil_iff.mpr hline, hr]
  simp [hh, joinHelp_of_trim ht]

-- Behind a form feed, a help text may begin like a variable.
example : read .flag "-q\x0c$HOME stays" 7 =
    .ok { name := "q", kind := .flag, short := some "-q", help := "$HOME stays", line := 7 } := by
  decide +kernel

end ShellArgs.Descriptor
