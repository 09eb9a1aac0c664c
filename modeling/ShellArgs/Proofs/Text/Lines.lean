import ShellArgs.Text.Line

namespace ShellArgs.Text

variable {c : Char} {s t l : List Char} {ls : List (List Char)}

-- A text that has no line breaks.
def Flat (s : List Char) : Prop :=
  ∀ c ∈ s, isLineBreak c = false

@[simp] theorem flat_nil : Flat [] :=
  fun _ h => nomatch h

@[simp] theorem flat_cons : Flat (c :: s) ↔ isLineBreak c = false ∧ Flat s := by
  simp [Flat]

@[simp] theorem flat_append : Flat (s ++ t) ↔ Flat s ∧ Flat t := by
  simp [Flat, or_imp, forall_and]

instance : Decidable (Flat s) :=
  List.decidableBAll _ s

theorem flat_intercalate {sep : List Char} (hs : Flat sep) :
    Flat (sep.intercalate ls) ↔ ∀ l ∈ ls, Flat l := by
  induction ls with
  | nil => exact iff_of_true flat_nil (by simp)
  | cons l ls hi =>
    cases ls
    case nil => simp
    case cons l' ls =>
      rw [List.intercalate_cons_cons, flat_append, flat_append, hi,
        List.forall_mem_cons (l := l' :: ls)]
      simp [hs]

theorem flat_of_mem_splitOn (hc : isLineBreak c = false) (h : Flat s) (hl : l ∈ s.splitOn c) :
    Flat l := by
  have hs : [c].intercalate (s.splitOn c) = s := List.intercalate_splitOn c
  rw [← hs, flat_intercalate (by simpa using hc)] at h
  exact h l hl

theorem flat_of_mem_splitOnDouble (h : Flat s) (hl : l ∈ splitOnDouble c s) : Flat l := by
  induction s using splitOnDouble.induct c generalizing l with
  | case1 => simp_all [splitOnDouble]
  | case2 => simp_all [splitOnDouble]
  | case3 d e s he hi =>
    rw [splitOnDouble, if_pos he] at hl
    have hs := (flat_cons.mp (flat_cons.mp h).2).2
    rcases List.mem_cons.mp hl with rfl | hl
    case inl => exact flat_nil
    case inr => exact hi hs hl
  | case4 d e s he hi =>
    rw [splitOnDouble, if_neg he] at hl
    have ⟨hd, hs⟩ := flat_cons.mp h
    cases hp : splitOnDouble c (e :: s)
    case nil => simp_all [extendFirst]
    case cons m ms =>
      rw [hp] at hl hi
      rcases List.mem_cons.mp hl with rfl | hl
      case inl => exact flat_cons.mpr ⟨hd, hi hs List.mem_cons_self⟩
      case inr => exact hi hs (List.mem_cons_of_mem m hl)

-- A text that stands on one line.
def OneLine (s : String) : Prop :=
  Flat s.toList

instance {s : String} : Decidable (OneLine s) :=
  inferInstanceAs (Decidable (Flat s.toList))

@[simp] theorem oneLine_ofList : OneLine (String.ofList s) ↔ Flat s := by
  rw [OneLine, String.toList_ofList]

@[simp] theorem oneLine_append {s t : String} : OneLine (s ++ t) ↔ OneLine s ∧ OneLine t := by
  rw [OneLine, String.toList_append, flat_append]
  rfl

theorem flat_of_mem_lines (h : l ∈ lines s) : Flat l :=
  fun _ hc => not_isLineBreak_of_mem_lines h hc

theorem lines_lineFeed : lines ('\n' :: t) = [] :: lines t := by
  rw [lines] <;> simp [isLineBreak]

theorem lines_cons (h : isLineBreak c = false) : lines (c :: s) = extendFirst c (lines s) := by
  have hr : c ≠ '\r' := by
    rintro rfl
    cases h
  rw [lines, if_neg (by simp [h])]
  exact fun _ he _ => hr he

theorem lines_of_flat (h : Flat s) (hne : s ≠ []) : lines s = [s] := by
  induction s with
  | nil => exact absurd rfl hne
  | cons c s hi =>
    have ⟨hc, hs⟩ := flat_cons.mp h
    rw [lines_cons hc]
    cases s
    case nil      => rfl
    case cons d s => rw [hi hs (List.cons_ne_nil d s), extendFirst]

theorem eq_of_mem_lines (h : Flat s) (hl : l ∈ lines s) : l = s := by
  cases s
  case nil => cases hl
  case cons c s =>
    rw [lines_of_flat h (List.cons_ne_nil c s)] at hl
    exact List.mem_singleton.mp hl

theorem lines_append_lineFeed (h : Flat s) : lines (s ++ '\n' :: t) = s :: lines t := by
  induction s with
  | nil => exact lines_lineFeed
  | cons c s hi =>
    rw [List.cons_append, lines_cons (h c List.mem_cons_self),
      hi fun d hd => h d (List.mem_cons_of_mem c hd)]
    rfl

theorem lines_intercalate (hne : ls ≠ []) (h : ∀ l ∈ ls, Flat l) :
    lines (['\n'].intercalate ls ++ '\n' :: t) = ls ++ lines t := by
  induction ls with
  | nil => exact absurd rfl hne
  | cons l ls hi =>
    have hl : Flat l := h l List.mem_cons_self
    cases ls
    case nil => simpa using lines_append_lineFeed hl
    case cons l' ls =>
      rw [List.intercalate_cons_cons, List.append_assoc, List.append_assoc, List.singleton_append,
        lines_append_lineFeed hl,
        hi (List.cons_ne_nil l' ls) fun m hm => h m (List.mem_cons_of_mem l hm)]
      rfl

theorem lines_eq_nil (h : lines s = []) : s = [] := by
  unfold lines at h
  split at h
  case h_1 => rfl
  case h_2 => cases h
  case h_3 =>
    split at h
    case isTrue  => cases h
    case isFalse => cases hs : lines ‹_› <;> simp [hs, extendFirst] at h

-- A line break that is not the carriage return of a line feed.
theorem lines_break (hc : isLineBreak c) (hn : ∀ u, c = '\r' → s = '\n' :: u → False)
    (hr : ¬ (c = '\r' ∧ s = [])) : lines (c :: s ++ '\n' :: t) = [] :: lines (s ++ '\n' :: t) := by
  rw [List.cons_append, lines, if_pos hc]
  rintro u rfl hu
  cases s
  case nil      => exact hr ⟨rfl, rfl⟩
  case cons d s => exact hn s rfl (by rw [(List.cons.inj hu).1])

-- What stands before a line feed may end in a line break itself. Then an empty line is between.
theorem lines_append_cases (s t : List Char) :
    lines (s ++ '\n' :: t) = lines s ++ lines t ∨
      lines (s ++ '\n' :: t) = lines s ++ [] :: lines t := by
  fun_induction lines s with
  | case1 => exact .inr lines_lineFeed
  | case2 s hi =>
    rw [List.cons_append, List.cons_append, lines]
    exact hi.imp (congrArg ([] :: ·)) (congrArg ([] :: ·))
  | case3 c s hn hc hi =>
    by_cases hr : c = '\r' ∧ s = []
    case pos =>
      obtain ⟨rfl, rfl⟩ := hr
      exact .inl (by simp [lines])
    case neg =>
      rw [lines_break hc hn hr]
      exact hi.imp (congrArg ([] :: ·)) (congrArg ([] :: ·))
  | case4 c s hn hc hi =>
    have hc : isLineBreak c = false := by simpa using hc
    rw [List.cons_append, lines_cons hc]
    cases hs : lines s
    case nil =>
      cases lines_eq_nil hs
      exact .inl (by rw [List.nil_append, lines_lineFeed]; rfl)
    case cons m ms =>
      rw [hs] at hi
      exact hi.imp (congrArg (extendFirst c ·)) (congrArg (extendFirst c ·))

theorem mem_lines_intercalate {ss : List (List Char)} (h : l ∈ lines (['\n'].intercalate ss)) :
    l = [] ∨ ∃ s ∈ ss, l ∈ lines s := by
  induction ss with
  | nil => cases h
  | cons s ss hi =>
    cases ss
    case nil => exact .inr ⟨s, List.mem_cons_self, by simpa using h⟩
    case cons s' ss =>
      rw [List.intercalate_cons_cons, List.append_assoc, List.singleton_append] at h
      have hl : l ∈ lines s ∨ l = [] ∨ l ∈ lines (['\n'].intercalate (s' :: ss)) := by
        rcases lines_append_cases s (['\n'].intercalate (s' :: ss)) with he | he <;> rw [he] at h
        case inl => exact (List.mem_append.mp h).imp_right .inr
        case inr => simpa using h
      rcases hl with hl | hl | hl
      case inl      => exact .inr ⟨s, List.mem_cons_self, hl⟩
      case inr.inl  => exact .inl hl
      case inr.inr =>
        have := hi hl
        exact this.imp_right fun ⟨x, hx, hm⟩ => ⟨x, List.mem_cons_of_mem s hx, hm⟩

theorem trim_append_blank (h : isBlankText t) : trim (s ++ t) = trim s := by
  have ht : ∀ c ∈ t, isBlank c := List.all_eq_true.mp h
  have hleft : trimLeft t = [] := by
    have : (t ++ []).dropWhile isBlank = [] := List.dropWhile_append_of_pos ht
    rwa [List.append_nil] at this
  have hright (u : List Char) : trimRight (u ++ t) = trimRight u := by
    simp only [trimRight, List.reverse_append]
    rw [List.dropWhile_append_of_pos fun c hc => ht c (List.mem_reverse.mp hc)]
  rw [trim, trim, trimLeft, List.dropWhile_append]
  split
  case isTrue hs =>
    rw [← trimLeft, hleft, trimLeft, List.isEmpty_iff.mp hs]
  case isFalse => exact hright _

theorem isBlankText_append : isBlankText (s ++ t) ↔ isBlankText s ∧ isBlankText t := by
  simp [isBlankText]

theorem isBlankText_intercalate {ss : List (List Char)} (h : ∀ s ∈ ss, isBlankText s) :
    isBlankText (['\n'].intercalate ss) := by
  induction ss with
  | nil => rfl
  | cons s ss hi =>
    have hs := h s List.mem_cons_self
    cases ss
    case nil => simpa using hs
    case cons s' ss =>
      rw [List.intercalate_cons_cons, isBlankText_append, isBlankText_append]
      exact ⟨⟨hs, by decide⟩, hi fun t ht => h t (List.mem_cons_of_mem s ht)⟩

-- Blank pieces at the end are cut off with the blanks.
theorem trim_intercalate_append {ss ts : List (List Char)} (h : ∀ t ∈ ts, isBlankText t) :
    trim (['\n'].intercalate (ss ++ ts)) = trim (['\n'].intercalate ss) := by
  suffices ∃ t, isBlankText t ∧ ['\n'].intercalate (ss ++ ts) = ['\n'].intercalate ss ++ t by
    obtain ⟨t, ht, he⟩ := this
    rw [he, trim_append_blank ht]
  induction ss with
  | nil => exact ⟨_, isBlankText_intercalate h, rfl⟩
  | cons s ss hi =>
    obtain ⟨t, ht, he⟩ := hi
    cases ss
    case nil =>
      cases ts
      case nil => exact ⟨[], rfl, by simp⟩
      case cons t' ts =>
        refine ⟨'\n' :: ['\n'].intercalate (t' :: ts), ?_, ?_⟩
        · exact isBlankText_append (s := ['\n']).mpr ⟨by decide, isBlankText_intercalate h⟩
        · simp [List.intercalate_cons_cons]
    case cons s' ss =>
      refine ⟨t, ht, ?_⟩
      rw [List.cons_append, List.cons_append, List.intercalate_cons_cons, ← List.cons_append, he,
        List.intercalate_cons_cons, List.append_assoc _ _ t]

end ShellArgs.Text
