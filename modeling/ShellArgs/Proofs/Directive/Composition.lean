import ShellArgs.Proofs.Directive.Accounting
import ShellArgs.Proofs.Text.Lines

-- Scripts that are put together from blocks of lines. What a block says does not depend on the
-- lines around it, unless it begins with comments that the text before it can take.

namespace ShellArgs

def Diagnostic.shift (k : Nat) (d : Diagnostic) : Diagnostic :=
  { d with line := d.line + k }

namespace Text

-- Texts of lines: line feeds stand between the lines, or after each of them.
inductive Consists (ls : List String) : String → Prop
  | between : Consists ls ("\n".intercalate ls)
  | after   : Consists ls (String.join (ls.map (· ++ "\n")))

variable {ls : List String} {s : String}

theorem lines_join_lineFeed (h : ∀ l ∈ ls, OneLine l) :
    lines (String.join (ls.map (· ++ "\n"))).toList = ls.map String.toList := by
  induction ls with
  | nil => rfl
  | cons l ls hi =>
    have ⟨hl, hls⟩ := List.forall_mem_cons.mp h
    have hcons : (String.join ((l :: ls).map (· ++ "\n"))).toList =
        l.toList ++ '\n' :: (String.join (ls.map (· ++ "\n"))).toList := by
      simp [String.join_cons]
    rw [hcons, lines_append_lineFeed hl, hi hls, List.map_cons]

-- An empty line at the end does not count if no line feed is after it.
theorem lines_intercalate_lineFeed (h : ∀ l ∈ ls, OneLine l) :
    lines ("\n".intercalate ls).toList = ls.map String.toList ∨
      lines ("\n".intercalate ls).toList ++ [[]] = ls.map String.toList := by
  rw [String.toList_intercalate]
  induction ls with
  | nil => exact .inl rfl
  | cons l ls hi =>
    have ⟨hl, hls⟩ := List.forall_mem_cons.mp h
    cases ls
    case nil =>
      by_cases hne : l.toList = []
      case pos => exact .inr (by simp [hne, lines])
      case neg => exact .inl (by simp [lines_of_flat hl hne])
    case cons l' ls =>
      have hcons : "\n".toList.intercalate ((l :: l' :: ls).map String.toList) =
          l.toList ++ '\n' :: "\n".toList.intercalate ((l' :: ls).map String.toList) := by
        simp [List.intercalate_cons_cons]
      rw [hcons, lines_append_lineFeed hl, List.map_cons, List.cons_append]
      exact (hi hls).imp (congrArg (l.toList :: ·)) (congrArg (l.toList :: ·))

end Text

namespace Directive

def shift (k : Nat) (d : Directive) : Directive :=
  { d with line := d.line + k }

def Event.shift (k : Nat) : Event → Event
  | directive d         => directive (d.shift k)
  | problem line column p => problem (line + k) column p

variable {line n k : Nat} {l b : List Char} {ls ms : List (List Char)}

theorem filterMap_directive_shift (es : List Event) :
    (es.map (Event.shift k)).filterMap Event.directive? =
      (es.filterMap Event.directive?).map (shift k) := by
  rw [List.filterMap_map, List.map_filterMap]
  apply List.filterMap_congr
  intro e _
  cases e <;> rfl

theorem filterMap_diagnostic_shift (es : List Event) :
    (es.map (Event.shift k)).filterMap Event.diagnostic? =
      (es.filterMap Event.diagnostic?).map (Diagnostic.shift k) := by
  rw [List.filterMap_map, List.map_filterMap]
  apply List.filterMap_congr
  intro e _
  cases e <;> rfl

theorem shift_eventOf? {after : List (List Char)} :
    (eventOf? line l after).map (Event.shift k) = eventOf? (line + k) l after := by
  unfold eventOf?
  cases marked? l
  case none => cases function? l <;> rfl
  case some m =>
    cases hr : readMarked m <;> simp only [hr] <;> rfl

theorem map_shift_events : (events line n ls).map (Event.shift k) = events (line + k) n ls := by
  induction ls generalizing line n
  case nil => rfl
  case cons l ls hi =>
    cases n
    case succ n => rw [events_succ, events_succ, hi, Nat.add_right_comm]
    case zero =>
      rw [events_zero, events_zero, List.map_append, ← Option.toList_map, shift_eventOf?, hi,
        Nat.add_right_comm]

-- What is continued ends at the latest where no plain comment follows.
theorem continuations_append (h : ∀ b ∈ ls.head?, ¬ IsPlainComment b) :
    continuations (ms ++ ls) = continuations ms := by
  induction ms
  case nil =>
    cases ls
    case nil      => rfl
    case cons b _ => simp [continuations, continuation?_eq_none (h b rfl)]
  case cons m ms hi => simp only [List.cons_append, continuations, hi]

-- The first `n` lines belong to an earlier directive.
theorem events_append (h : ∀ b ∈ ls.head?, ¬ IsPlainComment b) (hn : n ≤ ms.length) :
    events line n (ms ++ ls) = events line n ms ++ events (line + ms.length) 0 ls := by
  induction ms generalizing line n
  case nil =>
    cases Nat.le_zero.mp hn
    rfl
  case cons m ms hi =>
    have hline : line + (m :: ms).length = line + 1 + ms.length := by
      rw [List.length_cons]
      omega
    cases n
    case succ n =>
      rw [List.cons_append, events_succ, events_succ, hi (Nat.le_of_succ_le_succ hn), hline]
    case zero =>
      have hevent : eventOf? line m (ms ++ ls) = eventOf? line m ms := by
        simp only [eventOf?, continuations_append h]
      have hle : (if opensText m then (continuations ms).length else 0) ≤ ms.length := by
        split
        case isTrue  => exact length_continuations_le ms
        case isFalse => exact Nat.zero_le _
      rw [List.cons_append, events_zero, events_zero, hevent, continuations_append h, hi hle, hline,
        List.append_assoc]

section Script

variable {xs ys : List String} {s t u : String}

-- An empty line gives rise to nothing, and nothing goes on in it.
theorem events_concat_nil (hn : n ≤ ls.length) : events line n (ls ++ [[]]) = events line n ls := by
  have hplain : ∀ b ∈ [([] : List Char)].head?, ¬ IsPlainComment b := by
    rintro _ ⟨⟩ h
    cases h.hash
  rw [events_append hplain hn]
  exact List.append_nil _

theorem eventsOf_eq (hs : Text.Consists xs s) (h : ∀ l ∈ xs, Text.OneLine l) :
    eventsOf s = events 1 0 (xs.map String.toList) := by
  cases hs
  case after => rw [eventsOf, Text.lines_join_lineFeed h]
  case between =>
    rw [eventsOf]
    cases Text.lines_intercalate_lineFeed h
    case inl he => rw [he]
    case inr he => rw [← he, events_concat_nil (Nat.zero_le _)]

-- A script of two blocks of lines says what the first block says and then what the second one says,
-- which moves down by the lines of the first.
theorem lex_append (hs : Text.Consists xs s) (ht : Text.Consists ys t)
    (hu : Text.Consists (xs ++ ys) u) (hx : ∀ l ∈ xs, Text.OneLine l)
    (hy : ∀ l ∈ ys, Text.OneLine l) (hb : ∀ l ∈ ys.head?, ¬ IsPlainComment l.toList) :
    lex u = ((lex s).1 ++ (lex t).1.map (shift xs.length),
      (lex s).2 ++ (lex t).2.map (Diagnostic.shift xs.length)) := by
  have hhead : ∀ b ∈ (ys.map String.toList).head?, ¬ IsPlainComment b := by
    rw [List.head?_map]
    intro b hm
    obtain ⟨l, hl, rfl⟩ := Option.map_eq_some_iff.mp hm
    exact hb l hl
  have hevents : eventsOf u = eventsOf s ++ (eventsOf t).map (Event.shift xs.length) := by
    rw [eventsOf_eq hu (List.forall_mem_append.mpr ⟨hx, hy⟩), eventsOf_eq hs hx, eventsOf_eq ht hy,
      map_shift_events, List.map_append, events_append hhead (Nat.zero_le _), List.length_map]
  simp only [lex, hevents, List.filterMap_append, filterMap_directive_shift,
    filterMap_diagnostic_shift]

-- A line that names the program to run looks like a comment, but continues nothing.
theorem lex_append_bang :
    let xs := ["# @cmd Start", "# now"]
    let ys := ["#! not more", "# @nope", "start()"]
    let s := "\n".intercalate xs
    let t := String.join (ys.map (· ++ "\n"))
    let u := "\n".intercalate (xs ++ ys)
    (Text.Consists xs s ∧ Text.Consists ys t ∧ Text.Consists (xs ++ ys) u) ∧
      (∀ l ∈ xs, Text.OneLine l) ∧ (∀ l ∈ ys, Text.OneLine l) ∧
      (∀ l ∈ ys.head?, ¬ IsPlainComment l.toList) ∧
      lex u = ((lex s).1 ++ (lex t).1.map (shift 2), (lex s).2 ++ (lex t).2.map (Diagnostic.shift 2)) := by
  intro xs ys s t u
  have hx : ∀ l ∈ xs, Text.OneLine l := by decide
  have hy : ∀ l ∈ ys, Text.OneLine l := by decide
  have hb : ∀ l ∈ ys.head?, ¬ IsPlainComment l.toList := by
    rintro _ ⟨⟩ h
    exact h.noBang (by decide)
  exact ⟨⟨.between, .after, .between⟩, hx, hy, hb, lex_append .between .after .between hx hy hb⟩

-- A plain comment goes to the text before it.
example : (lex "# @cmd a\n# b").1 ≠ (lex "# @cmd a").1 ++ (lex "# b").1.map (shift 1) := by
  decide +kernel

end Script

end Directive

end ShellArgs
