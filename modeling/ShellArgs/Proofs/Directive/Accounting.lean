import ShellArgs.Proofs.Directive.Lines
import ShellArgs.Proofs.Directive.Shapes
import ShellArgs.Proofs.Matching

-- What becomes of the lines of a script. Each line gives rise to one directive, to one problem or
-- to nothing, or it belongs to the text of one directive before it.

namespace ShellArgs.Directive

def Event.line : Event → Int
  | directive d      => d.line
  | problem line _ _ => line

variable {line n i j : Nat} {l : List Char} {ls : List (List Char)} {e : Event} {d d' : Directive}

-- A line with a directive whose text goes on in the lines after it.
def opensText (l : List Char) : Bool :=
  match marked? l with
  | some m =>
    match readMarked m with
    | .ok (k, _) => k.isContinued
    | .error _   => false
  | none => false

-- What a line gives rise to if no directive before it takes it.
def eventOf? (line : Nat) (l : List Char) (after : List (List Char)) : Option Event :=
  match marked? l with
  | some m =>
    match readMarked m with
    | .error p   => some (.problem line m.column p)
    | .ok (k, s) =>
      some (.directive ⟨k, if k.isContinued then continued s (continuations after) else s, line⟩)
  | none => (function? l).map fun name => .directive ⟨.function, String.ofList name, line⟩

-- The lines from one place on, up to another one.
def PlainBetween (ls : List (List Char)) (i j : Nat) : Prop :=
  ∀ k, i ≤ k → k ≤ j → ∃ l, ls[k]? = some l ∧ IsPlainComment l

-- A line is taken if it is among the first `n`, which belong to an earlier directive, or if only
-- plain comments stand between it and a line that opens a text.
def Taken (n : Nat) (ls : List (List Char)) (i : Nat) : Prop :=
  i < n ∨ ∃ j l, j < i ∧ ls[j]? = some l ∧ opensText l ∧ PlainBetween ls (j + 1) i

theorem events_succ : events line (n + 1) (l :: ls) = events (line + 1) n ls :=
  rfl

-- One line, and what it leaves to the lines after it.
theorem events_zero : events line 0 (l :: ls) = (eventOf? line l ls).toList ++
    events (line + 1) (if opensText l then (continuations ls).length else 0) ls := by
  conv_lhs => unfold events
  unfold eventOf? opensText
  cases marked? l
  case none =>
    cases function? l <;> rfl
  case some m =>
    cases hr : readMarked m
    case error => simp [hr]
    case ok a  => by_cases hk : a.1.isContinued <;> simp [hr, hk]

theorem line_eventOf? {after : List (List Char)} (h : eventOf? line l after = some e) : e.line = line := by
  unfold eventOf? at h
  split at h
  case h_1 => split at h <;> cases h <;> rfl
  case h_2 =>
    obtain ⟨_, _, rfl⟩ := Option.map_eq_some_iff.mp h
    rfl

theorem le_line_of_mem_events (h : e ∈ events line n ls) : (line : Int) ≤ e.line := by
  induction ls generalizing line n
  case nil => simp [events] at h
  case cons l ls hi =>
    cases n
    case succ n =>
      have := hi (events_succ ▸ h)
      omega
    case zero =>
      rw [events_zero, List.mem_append, Option.mem_toList] at h
      cases h
      case inl h => exact Int.le_of_eq (line_eventOf? h).symm
      case inr h =>
        have := hi h
        omega

-- No two events are about one line.
theorem pairwise_line_events : (events line n ls).Pairwise (·.line < ·.line) := by
  induction ls generalizing line n
  case nil => simp [events]
  case cons l ls hi =>
    cases n
    case succ n => exact hi
    case zero =>
      rw [events_zero, List.pairwise_append]
      refine ⟨?_, hi, fun e he e' he' => ?_⟩
      · cases eventOf? line l ls <;> simp
      · have := line_eventOf? (Option.mem_toList.mp he)
        have := le_line_of_mem_events he'
        omega

-- How far the continuation of a directive goes.
theorem lt_length_continuations_iff : i < (continuations ls).length ↔ PlainBetween ls 0 i := by
  induction ls generalizing i
  case nil => simpa [continuations, PlainBetween] using ⟨0, by simp⟩
  case cons l ls hi =>
    by_cases hl : IsPlainComment l
    case neg =>
      rw [continuations, continuation?_eq_none hl]
      simp only [List.length_nil, Nat.not_lt_zero, false_iff]
      intro h
      obtain ⟨m, hm, hp⟩ := h 0 (Nat.le_refl _) (Nat.zero_le _)
      cases hm
      exact hl hp
    case pos =>
      obtain ⟨s, hs⟩ := Option.isSome_iff_exists.mp (isSome_comment?_iff.mpr hl.hash)
      rw [continuations, continuation?_of_plain hl, hs, List.length_cons]
      cases i
      case zero =>
        simp only [Nat.zero_lt_succ, true_iff]
        intro k _ hk
        cases Nat.le_zero.mp hk
        exact ⟨l, rfl, hl⟩
      case succ i =>
        rw [Nat.add_lt_add_iff_right, hi]
        constructor
        · intro h k hz hk
          cases k
          case zero   => exact ⟨l, rfl, hl⟩
          case succ k => exact h k (Nat.zero_le k) (by omega)
        · intro h k _ hk
          exact h (k + 1) (Nat.zero_le _) (by omega)

theorem continuations_eq : continuations ls = (ls.take (continuations ls).length).filterMap comment? := by
  induction ls
  case nil => rfl
  case cons l ls hi =>
    by_cases hl : IsPlainComment l
    case neg => simp [continuations, continuation?_eq_none hl]
    case pos =>
      obtain ⟨s, hs⟩ := Option.isSome_iff_exists.mp (isSome_comment?_iff.mpr hl.hash)
      have hc : continuations (l :: ls) = s :: continuations ls := by
        rw [continuations, continuation?_of_plain hl, hs]
      rw [hc, List.length_cons, List.take_succ_cons, List.filterMap_cons, hs, ← hi]

theorem opensText_eq_false (h : IsPlainComment l) : opensText l = false := by
  simp [opensText, marked?_eq_none_iff.mpr h.unmarked]

theorem plainBetween_cons : PlainBetween (l :: ls) (i + 1) (j + 1) ↔ PlainBetween ls i j := by
  constructor
  · intro h k hi hj
    exact h (k + 1) (by omega) (by omega)
  · intro h k hi hj
    cases k
    case zero   => omega
    case succ k => exact h k (by omega) (by omega)

theorem taken_succ (h : IsPlainComment l) : Taken (n + 1) (l :: ls) (i + 1) ↔ Taken n ls i := by
  unfold Taken
  rw [Nat.add_lt_add_iff_right]
  refine or_congr_right ⟨?_, ?_⟩
  · rintro ⟨j, m, hj, hm, ho, hp⟩
    cases j
    case zero =>
      cases hm
      simp [opensText_eq_false h] at ho
    case succ j => exact ⟨j, m, by omega, hm, ho, plainBetween_cons.mp hp⟩
  · rintro ⟨j, m, hj, hm, ho, hp⟩
    exact ⟨j + 1, m, by omega, hm, ho, plainBetween_cons.mpr hp⟩

theorem taken_zero : Taken 0 (l :: ls) (i + 1) ↔
    Taken (if opensText l then (continuations ls).length else 0) ls i := by
  unfold Taken
  constructor
  · rintro (hi | ⟨j, m, hj, hm, ho, hp⟩)
    · cases hi
    cases j
    case zero =>
      cases hm
      rw [if_pos ho, lt_length_continuations_iff]
      exact .inl (plainBetween_cons.mp hp)
    case succ j => exact .inr ⟨j, m, by omega, hm, ho, plainBetween_cons.mp hp⟩
  · rintro (hi | ⟨j, m, hj, hm, ho, hp⟩)
    · split at hi
      case isFalse => cases hi
      case isTrue ho =>
        exact .inr ⟨0, l, by omega, rfl, ho, plainBetween_cons.mpr (lt_length_continuations_iff.mp hi)⟩
    · exact .inr ⟨j + 1, m, by omega, hm, ho, plainBetween_cons.mpr hp⟩

-- The lines that a directive takes are plain comments.
theorem plain_of_mem_take {b : Bool} (h : l ∈ ls.take (if b then (continuations ls).length else 0)) :
    IsPlainComment l := by
  obtain ⟨i, hi, rfl⟩ := List.mem_take_iff_getElem.mp h
  split at hi
  case isFalse => simp at hi
  case isTrue =>
    have ⟨m, hm, hp⟩ := lt_length_continuations_iff.mp (Nat.lt_min.mp hi).1 i (Nat.zero_le i) (Nat.le_refl i)
    exact List.getElem_eq_iff _ |>.mpr hm ▸ hp

theorem mem_events_iff (hn : ∀ l ∈ ls.take n, IsPlainComment l) : e ∈ events line n ls ↔
    ∃ i l, ls[i]? = some l ∧ ¬ Taken n ls i ∧ eventOf? (line + i) l (ls.drop (i + 1)) = some e := by
  induction ls generalizing line n
  case nil => simp [events]
  case cons l ls hi =>
    -- The lines after the first one, one place further on.
    have hshift : ∀ n', (∀ l ∈ ls.take n', IsPlainComment l) →
        (∀ i, Taken n (l :: ls) (i + 1) ↔ Taken n' ls i) → (e ∈ events (line + 1) n' ls ↔
          ∃ i m, (l :: ls)[i + 1]? = some m ∧ ¬ Taken n (l :: ls) (i + 1) ∧
            eventOf? (line + (i + 1)) m ((l :: ls).drop (i + 1 + 1)) = some e) := by
      intro n' hn' ht
      simp only [hi hn', ht, List.getElem?_cons_succ, List.drop_succ_cons, Nat.add_right_comm,
        Nat.add_assoc]
    cases n
    case succ n =>
      have hl : IsPlainComment l := hn l (by simp)
      rw [events_succ, hshift n (fun m hm => hn m (by simp [hm])) fun i => taken_succ hl]
      constructor
      · rintro ⟨i, h⟩
        exact ⟨i + 1, h⟩
      · rintro ⟨i, m, hm, ht, h⟩
        cases i
        case zero   => exact absurd (.inl (Nat.zero_lt_succ n)) ht
        case succ i => exact ⟨i, m, hm, ht, h⟩
    case zero =>
      rw [events_zero, List.mem_append, Option.mem_toList, hshift _ (fun m => plain_of_mem_take) fun i => taken_zero]
      constructor
      · rintro (h | ⟨i, h⟩)
        · refine ⟨0, l, rfl, ?_, h⟩
          rintro (h | ⟨j, _, hj, _⟩)
          · cases h
          · cases hj
        · exact ⟨i + 1, h⟩
      · rintro ⟨i, m, hm, ht, h⟩
        cases i
        case zero   => cases hm; exact .inl h
        case succ i => exact .inr ⟨i, m, hm, ht, h⟩

-- What a line says by itself: the name of a function, or the text after a tag.
def Says (l : List Char) (k : DirectiveKind) (s : String) : Prop :=
  k = .function ∧ Defines s.toList l ∨ ∃ m, marked? l = some m ∧ readMarked m = .ok (k, s)

theorem of_eventOf?_directive {after : List (List Char)} (h : eventOf? line l after = some (.directive d)) :
    opensText l = d.kind.isContinued ∧ ∃ s, Says l d.kind s ∧
      d.text = continued s (if d.kind.isContinued then continuations after else []) := by
  unfold eventOf? at h
  unfold opensText Says
  cases hm : marked? l
  case some m =>
    cases hr : readMarked m
    case error p => simp [hm, hr] at h
    case ok a =>
      simp only [hm, hr, Option.some.injEq, Event.directive.injEq] at h
      subst h
      refine ⟨by simp [hr], a.2, .inr ⟨m, rfl, hr⟩, ?_⟩
      split <;> rfl
  case none =>
    rw [hm] at h
    have ⟨name, hf, hd⟩ := Option.map_eq_some_iff.mp h
    cases hd
    refine ⟨rfl, String.ofList name, .inl ⟨rfl, ?_⟩, rfl⟩
    rw [String.toList_ofList]
    exact function?_eq_some_iff.mp hf

theorem exists_marked_of_opensText (h : opensText l) :
    ∃ m k s, marked? l = some m ∧ readMarked m = .ok (k, s) ∧ k.isContinued := by
  unfold opensText at h
  split at h
  case h_2 => cases h
  case h_1 m hm =>
    split at h
    case h_1 k s hr => exact ⟨m, k, s, hm, hr, h⟩
    case h_2 => cases h

theorem plain_of_taken (h : Taken 0 ls i) : ∃ l, ls[i]? = some l ∧ IsPlainComment l := by
  obtain h | ⟨j, _, hj, _, _, hp⟩ := h
  · cases h
  · exact hp i hj (Nat.le_refl i)

-- The line at a place belongs to the text of a directive: only plain comments stand between them.
def Takes (d : Directive) (ls : List (List Char)) (i : Nat) : Prop :=
  d.kind.isContinued ∧ ∃ j : Nat, d.line = j + 1 ∧ j < i ∧ PlainBetween ls (j + 1) i

-- What there is at the line at a place. Lines are counted from one.
def directivesAt (ds : List Directive) (i : Nat) : List Directive :=
  ds.filter (·.line = (i : Int) + 1)

def diagnosticsAt (ps : List Diagnostic) (i : Nat) : List Diagnostic :=
  ps.filter (·.line = (i : Int) + 1)

-- A line is a directive if it defines a function, and none otherwise.
def FunctionAt (ds : List Directive) (i : Nat) (l : List Char) : Prop :=
  (∀ name, Defines name l → directivesAt ds i = [⟨.function, String.ofList name, i + 1⟩]) ∧
    ((∀ name, ¬ Defines name l) → directivesAt ds i = [])

-- What directives and problems have to do with the lines of a script.
structure Accounted (ls : List (List Char)) (ds : List Directive) (ps : List Diagnostic) : Prop where
  directives  : ds.Pairwise (·.line < ·.line)
  diagnostics : ps.Pairwise (·.line < ·.line)
  -- A marked line is a directive or a problem, and not part of another directive.
  marked : ∀ {i : Nat} {l : List Char}, ls[i]? = some l → IsMarked l → (∀ d ∈ ds, ¬ d.Takes ls i) ∧
    ((∃ d, directivesAt ds i = [d] ∧ diagnosticsAt ps i = []) ∨
      ∃ p, directivesAt ds i = [] ∧ diagnosticsAt ps i = [p])
  code : ∀ {i : Nat} {l : List Char}, ls[i]? = some l → l.head? ≠ some '#' →
    diagnosticsAt ps i = [] ∧ FunctionAt ds i l
  -- Comments that no directive takes can define functions, too.
  comment : ∀ {i : Nat} {l : List Char}, ls[i]? = some l → l.head? = some '#' → ¬ IsMarked l →
    diagnosticsAt ps i = [] ∧ ((∃ d ∈ ds, d.Takes ls i) → directivesAt ds i = []) ∧
      ((∀ d ∈ ds, ¬ d.Takes ls i) → FunctionAt ds i l)
  -- Only plain comments are taken, and each of them by one directive.
  plain : ∀ {d : Directive} {i : Nat}, d ∈ ds → d.Takes ls i → ∃ l, ls[i]? = some l ∧ IsPlainComment l
  once  : ∀ {d d' : Directive} {i : Nat}, d ∈ ds → d' ∈ ds → d.Takes ls i → d'.Takes ls i → d = d'
  -- The text of a directive is what its line says, and the lines that it takes.
  text  : ∀ {d : Directive}, d ∈ ds → ∃ (i : Nat) (l : List Char) (s : String) (n : Nat),
    ls[i]? = some l ∧ d.line = i + 1 ∧ Says l d.kind s ∧ (∀ j, d.Takes ls j ↔ i < j ∧ j ≤ i + n) ∧
    d.text = continued s (((ls.drop (i + 1)).take n).filterMap comment?)

section Script

variable {script : String}

theorem mem_eventsOf_iff : e ∈ eventsOf script ↔
    ∃ i l, (Text.lines script.toList)[i]? = some l ∧ ¬ Taken 0 (Text.lines script.toList) i ∧
      eventOf? (i + 1) l ((Text.lines script.toList).drop (i + 1)) = some e := by
  simp only [eventsOf, mem_events_iff (n := 0) (by simp), Nat.add_comm 1]

-- An event at the line at a place comes from this place.
theorem eq_of_line_eq {after : List (List Char)} (h : eventOf? (j + 1) l after = some e)
    (he : e.line = (i : Int) + 1) : i = j := by
  have := line_eventOf? h
  omega

theorem filter_eventsOf_of_taken (h : Taken 0 (Text.lines script.toList) i) :
    (eventsOf script).filter (·.line = (i : Int) + 1) = [] := by
  rw [List.filter_eq_nil_iff]
  intro e he hl
  have ⟨j, _, _, ht, hj⟩ := mem_eventsOf_iff.mp he
  exact ht (eq_of_line_eq hj (by simpa using hl) ▸ h)

theorem filter_eventsOf (hl : (Text.lines script.toList)[i]? = some l)
    (ht : ¬ Taken 0 (Text.lines script.toList) i) : (eventsOf script).filter (·.line = (i : Int) + 1) =
      (eventOf? (i + 1) l ((Text.lines script.toList).drop (i + 1))).toList := by
  cases he : eventOf? (i + 1) l ((Text.lines script.toList).drop (i + 1))
  case some e =>
    exact Matching.filter_of_pairwise_lt pairwise_line_events (mem_eventsOf_iff.mpr ⟨i, l, hl, ht, he⟩)
      (line_eventOf? he)
  case none =>
    rw [Option.toList_none, List.filter_eq_nil_iff]
    intro e' he' hl'
    have ⟨j, m, hm, _, hj⟩ := mem_eventsOf_iff.mp he'
    cases eq_of_line_eq hj (by simpa using hl')
    cases hl.symm.trans hm
    cases he.symm.trans hj

theorem directivesAt_lex : directivesAt (lex script).1 i =
    ((eventsOf script).filter (·.line = (i : Int) + 1)).filterMap Event.directive? := by
  rw [directivesAt, lex, List.filter_filterMap, List.filterMap_filter]
  apply List.filterMap_congr
  intro e _
  by_cases h : e.line = (i : Int) + 1 <;> cases e <;> simp_all [Event.directive?, Event.line]

theorem diagnosticsAt_lex : diagnosticsAt (lex script).2 i =
    ((eventsOf script).filter (·.line = (i : Int) + 1)).filterMap Event.diagnostic? := by
  rw [diagnosticsAt, lex, List.filter_filterMap, List.filterMap_filter]
  apply List.filterMap_congr
  intro e _
  by_cases h : e.line = (i : Int) + 1 <;> cases e <;> simp_all [Event.diagnostic?, Event.line]

theorem pairwise_line_diagnostics : (lex script).2.Pairwise (·.line < ·.line) := by
  refine (pairwise_line_events (n := 0)).filterMap _ fun e e' h p hp p' hp' => ?_
  cases e <;> cases hp
  cases e' <;> cases hp'
  exact h

theorem mem_directives_iff : d ∈ (lex script).1 ↔
    ∃ i l, (Text.lines script.toList)[i]? = some l ∧ ¬ Taken 0 (Text.lines script.toList) i ∧
      eventOf? (i + 1) l ((Text.lines script.toList).drop (i + 1)) = some (.directive d) := by
  rw [← mem_eventsOf_iff, lex, List.mem_filterMap]
  constructor
  · rintro ⟨e, he, hd⟩
    cases e <;> cases hd
    exact he
  · exact fun h => ⟨_, h, rfl⟩

theorem opensText_of_takes (hd : d ∈ (lex script).1) (h : d.Takes (Text.lines script.toList) i) :
    ∃ j l, j < i ∧ d.line = (j : Int) + 1 ∧ (Text.lines script.toList)[j]? = some l ∧ opensText l ∧
      PlainBetween (Text.lines script.toList) (j + 1) i := by
  have ⟨hk, j, hj, hji, hp⟩ := h
  have ⟨i', l, hl, _, he⟩ := mem_directives_iff.mp hd
  cases eq_of_line_eq he hj
  exact ⟨j, l, hji, hj, hl, (of_eventOf?_directive he).1.trans hk, hp⟩

-- What is taken is part of the text of a directive.
theorem taken_iff : Taken 0 (Text.lines script.toList) i ↔
    ∃ d ∈ (lex script).1, d.Takes (Text.lines script.toList) i := by
  constructor
  · intro h
    obtain h | ⟨j, l, hj, hl, ho, hp⟩ := h
    · cases h
    have ⟨m, k, s, hm, hr, hk⟩ := exists_marked_of_opensText ho
    have ht : ¬ Taken 0 (Text.lines script.toList) j := by
      intro ht
      have ⟨l', hl', hp'⟩ := plain_of_taken ht
      cases hl.symm.trans hl'
      simp [opensText_eq_false hp'] at ho
    let d : Directive := ⟨k, continued s (continuations ((Text.lines script.toList).drop (j + 1))), j + 1⟩
    have hd : d ∈ (lex script).1 :=
      mem_directives_iff.mpr ⟨j, l, hl, ht, by simp [eventOf?, hm, hr, hk, d]⟩
    exact ⟨d, hd, hk, j, rfl, hj, hp⟩
  · rintro ⟨d, hd, h⟩
    have ⟨j, l, hj, _, hl, ho, hp⟩ := opensText_of_takes hd h
    exact .inr ⟨j, l, hj, hl, ho, hp⟩

-- A line that opens a text is no plain comment, so it ends what an earlier directive takes.
theorem le_of_takes (hd : d ∈ (lex script).1) (hd' : d' ∈ (lex script).1)
    (h : d.Takes (Text.lines script.toList) i) (h' : d'.Takes (Text.lines script.toList) i) :
    d'.line ≤ d.line := by
  have ⟨j, _, _, hj, _, _, hp⟩ := opensText_of_takes hd h
  have ⟨j', l, hji', hj', hl, ho, _⟩ := opensText_of_takes hd' h'
  by_contra hlt
  have ⟨l', hl', hp'⟩ := hp j' (by omega) (by omega)
  cases hl.symm.trans hl'
  simp [opensText_eq_false hp'] at ho

theorem plainBetween_drop : PlainBetween (ls.drop i) 0 j ↔ PlainBetween ls i (i + j) := by
  constructor
  · intro h k hi hj
    have ⟨l, hl, hp⟩ := h (k - i) (Nat.zero_le _) (by omega)
    rw [List.getElem?_drop, Nat.add_sub_cancel' hi] at hl
    exact ⟨l, hl, hp⟩
  · intro h k _ hj
    rw [List.getElem?_drop]
    exact h (i + k) (by omega) (by omega)

-- The lines that a directive takes are those of its continuation.
theorem exists_takes_iff (ls : List (List Char)) (hd : d.line = (i : Int) + 1) :
    ∃ n, (∀ j, d.Takes ls j ↔ i < j ∧ j ≤ i + n) ∧
      (if d.kind.isContinued then continuations (ls.drop (i + 1)) else []) =
        ((ls.drop (i + 1)).take n).filterMap comment? := by
  split
  case isFalse hk =>
    refine ⟨0, fun j => ⟨fun h => absurd h.1 hk, fun h => ?_⟩, by simp⟩
    omega
  case isTrue hk =>
    refine ⟨_, fun j => ?_, continuations_eq⟩
    constructor
    · rintro ⟨_, i', hi, hij, hp⟩
      obtain rfl : i = i' := by omega
      obtain ⟨k, rfl⟩ := Nat.exists_eq_add_of_le hij
      have := lt_length_continuations_iff.mpr (plainBetween_drop.mpr hp)
      omega
    · rintro ⟨hij, hj⟩
      obtain ⟨k, rfl⟩ := Nat.exists_eq_add_of_le hij
      have hp := lt_length_continuations_iff.mp (by omega : k < (continuations (ls.drop (i + 1))).length)
      exact ⟨hk, i, hd, hij, plainBetween_drop.mp hp⟩

theorem not_taken_of_marked (hl : ls[i]? = some l) (hm : IsMarked l) : ¬ Taken 0 ls i := by
  intro ht
  have ⟨l', hl', hp⟩ := plain_of_taken ht
  cases hl.symm.trans hl'
  exact hp.unmarked hm

theorem not_taken_of_head? (hl : ls[i]? = some l) (hh : l.head? ≠ some '#') : ¬ Taken 0 ls i := by
  intro ht
  have ⟨l', hl', hp⟩ := plain_of_taken ht
  cases hl.symm.trans hl'
  exact hh hp.hash

theorem head?_of_isMarked (h : IsMarked l) : l.head? = some '#' := by
  obtain ⟨hashes, _, _, rfl, hne, hh, _⟩ := h
  obtain ⟨c, cs, rfl⟩ := List.exists_cons_of_ne_nil hne
  rw [hh c List.mem_cons_self]
  rfl

theorem of_unmarked (hl : (Text.lines script.toList)[i]? = some l) (hm : ¬ IsMarked l)
    (ht : ¬ Taken 0 (Text.lines script.toList) i) :
    diagnosticsAt (lex script).2 i = [] ∧ FunctionAt (lex script).1 i l := by
  have hevent : eventOf? (i + 1) l ((Text.lines script.toList).drop (i + 1)) =
      (function? l).map fun name => .directive ⟨.function, String.ofList name, i + 1⟩ := by
    rw [eventOf?, marked?_eq_none_iff.mpr hm]
    rfl
  rw [FunctionAt, directivesAt_lex, diagnosticsAt_lex, filter_eventsOf hl ht, hevent]
  refine ⟨by cases function? l <;> rfl, fun name hn => ?_, fun hn => ?_⟩
  · rw [function?_eq_some_iff.mpr hn]
    rfl
  · rw [Option.eq_none_iff_forall_ne_some.mpr fun name h => hn name (function?_eq_some_iff.mp h)]
    rfl

-- Every line is accounted for once.
theorem lex_accounts (script : String) :
    Accounted (Text.lines script.toList) (lex script).1 (lex script).2 := by
  constructor
  case directives  => exact pairwise_line_lex script
  case diagnostics => exact pairwise_line_diagnostics
  case marked =>
    intro i l hl hm
    have ht := not_taken_of_marked hl hm
    refine ⟨fun d hd h => ht (taken_iff.mpr ⟨d, hd, h⟩), ?_⟩
    rw [directivesAt_lex, diagnosticsAt_lex, filter_eventsOf hl ht]
    have ⟨m, hm⟩ := Option.isSome_iff_exists.mp (isSome_marked?_iff.mpr hm)
    unfold eventOf?
    simp only [hm]
    cases readMarked m
    case error p => exact .inr ⟨_, rfl, rfl⟩
    case ok a    => exact .inl ⟨_, rfl, rfl⟩
  case code =>
    intro i l hl hh
    exact of_unmarked hl (fun hm => hh (head?_of_isMarked hm)) (not_taken_of_head? hl hh)
  case comment =>
    intro i l hl _ hm
    rw [← taken_iff]
    by_cases ht : Taken 0 (Text.lines script.toList) i
    case pos =>
      have hnil := filter_eventsOf_of_taken ht
      refine ⟨by rw [diagnosticsAt_lex, hnil]; rfl, fun _ => by rw [directivesAt_lex, hnil]; rfl, fun hn => ?_⟩
      have ⟨d, hd, h⟩ := taken_iff.mp ht
      exact absurd h (hn d hd)
    case neg =>
      have ⟨hp, hf⟩ := of_unmarked hl hm ht
      exact ⟨hp, fun h => absurd h ht, fun _ => hf⟩
  case plain =>
    intro d i hd h
    exact plain_of_taken (taken_iff.mpr ⟨d, hd, h⟩)
  case once =>
    intro d d' i hd hd' h h'
    have hline := Int.le_antisymm (le_of_takes hd' hd h' h) (le_of_takes hd hd' h h')
    exact Matching.eq_of_pairwise_lt (pairwise_line_lex script) hd hd' hline
  case text =>
    intro d hd
    have ⟨i, l, hl, _, he⟩ := mem_directives_iff.mp hd
    have ⟨_, s, hs, ht⟩ := of_eventOf?_directive he
    have hline : d.line = (i : Int) + 1 := line_eventOf? he
    have ⟨n, hn, hc⟩ := exists_takes_iff (Text.lines script.toList) hline
    exact ⟨i, l, s, n, hl, hline, hs, hn, hc ▸ ht⟩

-- A function ends what a directive takes, and takes nothing itself.
example : ((lex "# @cmd a\n# b\nf() { :; }\n# c").1.map fun d => (d.kind, d.text, d.line)) =
    [(.command, "a\nb", 1), (.function, "f", 3)] := by
  decide +kernel

end Script

end ShellArgs.Directive
