import ShellArgs.Proofs.Descriptor.Characters
import ShellArgs.Proofs.Descriptor.Notation

namespace ShellArgs.Descriptor

namespace Word

variable {p : Char → Bool} {q : Char → Prop} {s : List Char} {c : Char} (w : Word p)

theorem not_mem (h : p c = false) : c ∉ w.chars := by
  intro hc
  simp [w.all c hc] at h

theorem head?_any : (w.chars ++ s).head?.any p := by
  obtain ⟨_ | ⟨c, s⟩, hall, hne⟩ := w
  · cases hne rfl
  · exact hall c (by simp)

theorem opens (h : ∀ c, p c → q c) : Opens q (w.chars ++ s) :=
  (Opens.of_forall fun c hc => h c (w.all c hc)).append fun he => absurd he w.ne

end Word

theorem not_mem_mark {c d : Char} {b : Bool} (h : d ≠ c) : d ∉ mark c b := by
  cases b <;> simp [mark, h]

theorem isName_chars {s : List Char} (h : Shell.isName s) :
    s.head?.any Shell.isNameStart ∧ ∀ c ∈ s, Shell.isNameChar c := by
  cases s
  case nil => cases h
  case cons c s =>
    have ⟨hc, hs⟩ : Shell.isNameStart c ∧ s.all Shell.isNameChar := by simpa [Shell.isName] using h
    refine ⟨hc, List.forall_mem_cons.mpr ⟨?_, List.all_eq_true.mp hs⟩⟩
    simp only [Shell.isNameStart, Bool.or_eq_true] at hc
    simp only [Shell.isNameChar, Char.isAlphanum, Bool.or_eq_true]
    exact hc.imp_left .inl

theorem isShortChar_of_isLoneChar {k : ParamKind} {c : Char} (h : isLoneChar k c) :
    isShortChar c := by
  cases k
  case option     => exact isShortChar_of_isLoneShortChar h
  case flag       => exact h
  case positional => exact h

theorem startsLong_dash {s : List Char} (h : s.head? ≠ some '-') :
    startsLong ('-' :: s) = s.head?.any isNameChar := by
  unfold startsLong
  split <;> simp_all

theorem LongForm.ofList_written (l : LongForm) :
    String.ofList l.written = (if l.double then "--" else "-") ++ String.ofList l.name.chars := by
  rw [← String.toList_inj]
  cases h : l.double <;> simp [written, rest, mark, h]

namespace Choices

-- Without a mark, the choices say nothing about the default.
theorem declare_comm {p : Param} {c : Choices} {d : Default} (h : c.isMarked = false) :
    d.declare (c.declare p) = c.declare (d.declare p) := by
  cases c
  case function => cases d <;> rfl
  case texts marked _ _ _ =>
    cases marked
    case true  => cases h
    case false => cases d <;> rfl

end Choices

-- The first characters of a part set it apart from what comes before.
section Opens

variable {P : Char → Prop} {t : List Char}

theorem ChoiceText.opens (c : ChoiceText) : Opens (· ∉ ['=', '\x60']) c.written := by
  cases c
  case bare text plain start => exact start.mono (by simp_all)
  case quoted q =>
    obtain ⟨quote, _, _⟩ := q
    cases quote <;> simp [written, Quoted.written, Quote.char]

theorem ChoiceText.opens_barred (cs : List ChoiceText) :
    Opens (fun c => c = '|' ∨ c = ']') (cs.flatMap barred ++ ']' :: t) := by
  cases cs
  case nil  => exact Opens.cons.mpr (.inr rfl)
  case cons => exact Opens.cons.mpr (.inl rfl)

theorem Variable.opens (v : Variable) : Opens (Text.isBlank ·) v.written :=
  v.gap.opens fun _ => isBlank_of_isSpace

namespace Ending

variable (e : Ending)

theorem opens_help : Opens (Text.isBlank ·) (e.blanks ++ e.help) := by
  refine (Opens.of_forall e.areBlanks).append fun hb => ?_
  have hh : e.help = [] := by
    by_contra h
    exact e.apart h hb
  rw [hh]
  exact .nil

theorem opens : Opens (Text.isBlank ·) e.written := by
  refine Opens.append ?_ fun _ => e.opens_help
  cases e.env
  case none   => exact .nil
  case some v => exact v.opens

theorem trim_help : Text.trim (e.blanks ++ e.help) = e.help := by
  have htrim := e.trimmed
  rw [Text.trim, Text.trimLeft] at *
  rw [List.dropWhile_append_of_pos e.areBlanks, htrim]

-- Any help text can be written, with or without a variable, so that it is not taken for
-- anything else.
theorem exists_apart (env : Option Variable) {help : List Char} (ht : Text.trim help = help)
    (hl : '\n' ∉ help) : ∃ e : Ending, e.env = env ∧ e.help = help ∧
      (e.written.dropWhile isSpace).head? ≠ some '<' ∧
        startsLong (e.written.dropWhile isSpace) = false := by
  have hblank : ∀ c ∈ ['\x0c'], Text.isBlank c := by
    intro c hc
    cases List.mem_singleton.mp hc
    rfl
  have hfeed : isSpace '\x0c' = false := by decide
  refine ⟨⟨env, ['\x0c'], hblank, help, ht, by simp, by simpa using hl, by simp [hfeed]⟩, rfl, rfl, ?_⟩
  cases env
  case none => simp [written, hfeed, startsLong]
  case some v =>
    have hdollar : isSpace '$' = false := by decide
    simp [written, Variable.written, List.dropWhile_append_of_pos v.gap.all, hdollar, startsLong]

end Ending

namespace ValueName

variable (n : ValueName)

theorem opens : Opens (fun c => Text.isBlank c ∨ c = '<') (n.written ++ t) := by
  rw [written, List.append_assoc, List.append_assoc]
  exact (Opens.of_forall fun c hc => .inl (isBlank_of_isSpace (n.isGap c hc))).append
    fun _ => Opens.cons.mpr (.inr rfl)

theorem opens_blank (h : n.gap ≠ []) : Opens (Text.isBlank ·) (n.written ++ t) := by
  rw [written, List.append_assoc, List.append_assoc]
  exact (Opens.of_forall fun c hc => isBlank_of_isSpace (n.isGap c hc)).append
    fun he => absurd he h

end ValueName

theorem Values.opens (v : Values) (hd : P '=') (hc : P '[') (ht : Opens P t) :
    Opens P (v.written ++ t) := by
  have hdefault : Opens P (v.default.elim [] Default.written) := by
    cases v.default
    case none   => exact .nil
    case some d => cases d <;> exact Opens.cons.mpr hd
  have hchoices : Opens P (v.choices.elim [] Choices.written) := by
    cases v.choices
    case none   => exact .nil
    case some c => cases c <;> exact Opens.cons.mpr hc
  refine Opens.append ?_ fun _ => ht
  unfold Values.written
  cases v.choicesFirst
  case true  => exact hchoices.append fun _ => hdefault
  case false => exact hdefault.append fun _ => hchoices

namespace Body

variable (b : Body)

theorem opens_names : Opens (fun c => Text.isBlank c ∨ c = '<')
    (b.names.flatMap ValueName.written ++ b.ending.written) := by
  cases b.names
  case nil => exact b.ending.opens.mono fun _ => .inl
  case cons n ns =>
    rw [List.flatMap_cons, List.append_assoc]
    exact n.opens

theorem opens_blank (h : b.values.endsBare) :
    Opens (Text.isBlank ·) (b.names.flatMap ValueName.written ++ b.ending.written) := by
  cases hn : b.names
  case nil => exact b.ending.opens
  case cons n ns =>
    rw [List.flatMap_cons, List.append_assoc]
    exact n.opens_blank (b.apart h n (by simp [hn]))

theorem opens_values : Opens (· ∉ ['!', '*', '+'])
    (b.values.written ++ (b.names.flatMap ValueName.written ++ b.ending.written)) :=
  b.values.opens (by decide) (by decide) (b.opens_names.not_mem (by decide))

-- A name ends where the body begins.
theorem opens : Opens (isNameChar · = false) b.written := by
  have hnames : Opens (isNameChar · = false)
      (b.names.flatMap ValueName.written ++ b.ending.written) := by
    refine b.opens_names.mono ?_
    rintro c (h | rfl)
    · exact isNameChar_of_isBlank h
    · decide
  refine Opens.append ?_ fun _ => b.values.opens (by decide) (by decide) hnames
  cases b.marker
  case none => exact .nil
  all_goals exact Opens.cons.mpr (by decide)

end Body

theorem FlagBody.opens (b : FlagBody) : Opens (isNameChar · = false) b.written := by
  refine Opens.append ?_ fun _ => b.ending.opens.mono fun _ => isNameChar_of_isBlank
  cases b.repeats
  case true  => exact Opens.cons.mpr (by decide)
  case false => exact .nil

end Opens

-- All of a descriptor is written on one line.
section Line

variable {k : ParamKind}

theorem mem_escape {quote c : Char} {s : List Char} (h : c ∈ escape quote s) : c = '\\' ∨ c ∈ s := by
  have ⟨d, hd, hc⟩ := List.mem_flatMap.mp h
  split at hc
  case isTrue =>
    obtain rfl | rfl : c = '\\' ∨ c = d := by simpa using hc
    · exact .inl rfl
    · exact .inr hd
  case isFalse =>
    obtain rfl : c = d := by simpa using hc
    exact .inr hd

theorem Quoted.newline_not_mem (q : Quoted) : '\n' ∉ q.written := by
  have hquote : '\n' ≠ q.quote.char := by cases q.quote <;> decide
  have hescape : '\n' ∉ escape q.quote.char q.text := by
    intro h
    obtain h | h := mem_escape h
    · revert h
      decide
    · exact q.line h
  simp [written, hquote, hescape]

theorem Default.newline_not_mem (d : Default) : '\n' ∉ d.written := by
  cases d
  case bare text plain start =>
    have : '\n' ∉ text := fun h => (plain _ h).1 (by decide)
    simp [written, this]
  case quoted q => simp [written, q.newline_not_mem]
  case function fn => simp [written, fn.not_mem (c := '\n') (by decide)]

theorem ChoiceText.newline_not_mem (c : ChoiceText) : '\n' ∉ c.written := by
  cases c
  case bare text plain start => exact fun h => plain _ h (by decide)
  case quoted q => exact q.newline_not_mem

theorem Choices.newline_not_mem (c : Choices) : '\n' ∉ c.written := by
  cases c
  case texts marked first more start =>
    simp [written, not_mem_mark, ChoiceText.barred, ChoiceText.newline_not_mem]
  case function fn unchecked =>
    simp [written, not_mem_mark, fn.not_mem (c := '\n') (by decide)]

theorem Values.newline_not_mem (v : Values) : '\n' ∉ v.written := by
  have hd : '\n' ∉ v.default.elim [] Default.written := by
    cases v.default <;> simp [Default.newline_not_mem]
  have hc : '\n' ∉ v.choices.elim [] Choices.written := by
    cases v.choices <;> simp [Choices.newline_not_mem]
  cases h : v.choicesFirst <;> simp [written, h, hd, hc]

theorem ValueName.newline_not_mem (n : ValueName) : '\n' ∉ n.written := by
  have hgap : '\n' ∉ n.gap := fun h => absurd (n.isGap _ h) (by decide)
  simp [written, hgap, n.line]

theorem Variable.newline_not_mem (v : Variable) : '\n' ∉ v.written := by
  have hgap : '\n' ∉ v.gap.chars := v.gap.not_mem (by decide)
  have hname : '\n' ∉ v.name := fun h => absurd ((isName_chars v.isName).2 _ h) (by decide)
  simp [written, hgap, hname]

theorem Ending.newline_not_mem (e : Ending) : '\n' ∉ e.written := by
  have henv : '\n' ∉ e.env.elim [] Variable.written := by
    cases e.env <;> simp [Variable.newline_not_mem]
  simpa [written, henv] using e.line

theorem Body.newline_not_mem (b : Body) : '\n' ∉ b.written := by
  have hm : '\n' ∉ b.marker.written := by cases b.marker <;> decide
  simp [written, hm, b.values.newline_not_mem, b.ending.newline_not_mem, ValueName.newline_not_mem]

theorem FlagBody.newline_not_mem (b : FlagBody) : '\n' ∉ b.written := by
  simp [written, not_mem_mark, b.ending.newline_not_mem]

theorem LongForm.newline_not_mem (l : LongForm) : '\n' ∉ l.written := by
  simp [written, rest, not_mem_mark, l.name.not_mem (c := '\n') (by decide)]

theorem Forms.newline_not_mem (f : Forms k) : '\n' ∉ f.written := by
  have hne : ∀ {c}, isShortChar c → '\n' ≠ c := by
    rintro _ h rfl
    revert h
    decide
  cases f
  case both c isShort gap l =>
    simp [written, hne isShort, gap.not_mem (c := '\n') (by decide), l.newline_not_mem]
  case long l _ => exact l.newline_not_mem
  case short c isLone => simp [written, hne (isShortChar_of_isLoneChar isLone)]

theorem PositionalName.newline_not_mem (n : PositionalName) : '\n' ∉ n.written := by
  cases n <;> simp [written, Word.not_mem (c := '\n') _ (show isNameChar '\n' = false by decide)]

theorem Notation.newline_not_mem (n : Notation k) : '\n' ∉ n.written := by
  cases n
  case option forms body _ _    => simp [written, forms.newline_not_mem, body.newline_not_mem]
  case flag forms body _        => simp [written, forms.newline_not_mem, body.newline_not_mem]
  case positional name body _ _ => simp [written, name.newline_not_mem, body.newline_not_mem]

end Line

end ShellArgs.Descriptor
