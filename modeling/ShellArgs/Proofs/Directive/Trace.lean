import ShellArgs.Proofs.Directive.Composition
import ShellArgs.Proofs.Unlined

-- What lines give rise to, wherever in a script they stand. Lines that give rise to nothing can
-- come and go, as long as the lines around them are not joined by that.

namespace ShellArgs.Directive

def Event.unlined : Event → Event
  | directive d         => directive d.unlined
  | problem _ column p => problem 0 column p

variable {line n : Nat} {l b name : List Char} {ls ms : List (List Char)} {e : Event}

theorem unlined_eventOf? {after : List (List Char)} :
    (eventOf? line l after).map Event.unlined = eventOf? 0 l after := by
  unfold eventOf?
  cases marked? l
  case none => cases function? l <;> rfl
  case some m =>
    cases hr : readMarked m <;> simp only [hr] <;> rfl

theorem map_unlined_events (line line' : Nat) :
    (events line n ls).map Event.unlined = (events line' n ls).map Event.unlined := by
  induction ls generalizing line line' n
  case nil => rfl
  case cons l ls hi =>
    cases n
    case succ n => exact hi (line + 1) (line' + 1)
    case zero =>
      have (line : Nat) :
          (eventOf? line l ls).toList.map Event.unlined = (eventOf? 0 l ls).toList := by
        rw [← Option.toList_map, unlined_eventOf?]
      rw [events_zero, events_zero, List.map_append, List.map_append, this, this, hi (line + 1)]

-- `absorbed` is the number of lines that belong to an earlier directive.
def trace (absorbed : Nat) (ls : List (List Char)) : List Event :=
  (events 0 absorbed ls).map Event.unlined

theorem trace_succ : trace (n + 1) (l :: ls) = trace n ls := by
  rw [trace, events_succ, map_unlined_events _ 0, trace]

theorem trace_zero : trace 0 (l :: ls) = (eventOf? 0 l ls).toList ++
    trace (if opensText l then (continuations ls).length else 0) ls := by
  rw [trace, events_zero, List.map_append, ← Option.toList_map, unlined_eventOf?,
    map_unlined_events _ 0, trace]

theorem trace_eq_drop : trace n ls = trace 0 (ls.drop n) := by
  induction ls generalizing n
  case nil => cases n <;> rfl
  case cons l ls hi =>
    cases n
    case zero   => rfl
    case succ n => rw [trace_succ, hi, List.drop_succ_cons]

-- A line that is neither a directive nor the first one of a function.
structure Quiet (l : List Char) : Prop where
  unmarked   : ¬ IsMarked l
  undefining : ∀ name, ¬ Defines name l

namespace Quiet

theorem function?_eq_none (h : Quiet l) : function? l = none :=
  Option.eq_none_iff_forall_ne_some.mpr fun name hn =>
    h.undefining name (function?_eq_some_iff.mp hn)

theorem trace_cons (h : Quiet l) : trace 0 (l :: ls) = trace 0 ls := by
  have hm := marked?_eq_none_iff.mpr h.unmarked
  have hevent : eventOf? 0 l ls = none := by simp [eventOf?, hm, h.function?_eq_none]
  have hopens : opensText l = false := by simp [opensText, hm]
  rw [trace_zero, hevent, hopens]
  rfl

end Quiet

theorem trace_append_of_quiet (h : ∀ l ∈ ms, Quiet l) : trace 0 (ms ++ ls) = trace 0 ls := by
  induction ms with
  | nil => rfl
  | cons m ms hi =>
    rw [List.cons_append, (h m List.mem_cons_self).trace_cons,
      hi fun l hl => h l (List.mem_cons_of_mem m hl)]

-- Only some characters make a line more than a plain one.
theorem quiet_of_forall (ha : '@' ∉ l) (hf : 'f' ∉ l) (hp : '(' ∉ l) : Quiet l where
  unmarked := by
    rintro ⟨hashes, spaces, rest, rfl, _⟩
    exact ha (by simp)
  undefining := by
    rintro name (_ | _)
    case keyword => exact hf (by simp)
    case parens  => exact hp (by simp)

theorem quiet_of_isBlankText (h : Text.isBlankText l) : Quiet l := by
  have hnot {c : Char} (hc : Text.isBlank c = false) : c ∉ l := by
    intro hm
    simp [List.all_eq_true.mp h c hm] at hc
  exact quiet_of_forall (hnot (by decide)) (hnot (by decide)) (hnot (by decide))

theorem mem_of_comment? {s : List Char} {c : Char} (h : comment? l = some s) (hc : c ∈ l) :
    c = '#' ∨ Text.isBlank c ∨ c ∈ s := by
  unfold comment? at h
  split at h
  case h_2 => cases h
  case h_1 l =>
    rw [← List.takeWhile_append_dropWhile (p := (· == '#')) (l := '#' :: l), List.mem_append] at hc
    rcases hc with hc | hc
    case inl => exact .inl (by simpa using List.mem_takeWhile_imp hc)
    case inr =>
      generalize ('#' :: l).dropWhile (· == '#') = t at h hc
      split at h <;> cases h
      case h_1 | h_2 =>
        rcases List.mem_cons.mp hc with rfl | hc
        case inl => exact .inr (.inl (by decide))
        case inr => exact .inr (.inr hc)
      case h_3 => exact .inr (.inr hc)

theorem quiet_of_comment? {s : List Char} (h : comment? l = some s) (hs : Text.isBlankText s) :
    Quiet l := by
  have hnot {c : Char} (hh : c ≠ '#') (hb : Text.isBlank c = false) : c ∉ l := by
    intro hm
    rcases mem_of_comment? h hm with hc | hc | hc
    case inl     => exact hh hc
    case inr.inl => simp [hb] at hc
    case inr.inr => simp [List.all_eq_true.mp hs c hc] at hb
  exact quiet_of_forall (hnot (by decide) (by decide)) (hnot (by decide) (by decide))
    (hnot (by decide) (by decide))

theorem not_plain_of_isBlankText (h : Text.isBlankText b) : ¬ IsPlainComment b := by
  intro hp
  cases b
  case nil => cases hp.hash
  case cons c b =>
    obtain rfl : c = '#' := by simpa using hp.hash
    simp [Text.isBlankText, show Text.isBlank '#' = false from by decide] at h

-- Nothing goes on over a blank line.
theorem trace_append_blank (hb : Text.isBlankText b) (hn : n ≤ ms.length) :
    trace n (ms ++ b :: ls) = trace n ms ++ trace 0 ls := by
  have hplain : ∀ c ∈ (b :: ls).head?, ¬ IsPlainComment c := by
    rintro _ ⟨⟩
    exact not_plain_of_isBlankText hb
  have hrest : trace 0 (b :: ls) = trace 0 ls := (quiet_of_isBlankText hb).trace_cons
  rw [trace, events_append hplain hn, List.map_append, map_unlined_events (0 + ms.length) 0, ← trace,
    ← trace, hrest]

theorem trace_append_of_blank (h : ∀ l ∈ ls, Text.isBlankText l) :
    trace 0 (ms ++ ls) = trace 0 ms := by
  cases ls
  case nil => rw [List.append_nil]
  case cons l ls =>
    have hnil : trace 0 ls = [] := by
      rw [← List.append_nil ls, trace_append_of_quiet fun m hm =>
        quiet_of_isBlankText (h m (List.mem_cons_of_mem l hm))]
      rfl
    rw [trace_append_blank (h l List.mem_cons_self) (Nat.zero_le _), hnil, List.append_nil]

theorem continuations_append_of_plain (h : ∀ m ∈ ms, IsPlainComment m) :
    continuations (ms ++ ls) = ms.filterMap comment? ++ continuations ls := by
  induction ms with
  | nil => rfl
  | cons m ms hi =>
    have hm := h m List.mem_cons_self
    have ⟨s, hs⟩ := Option.isSome_iff_exists.mp (isSome_comment?_iff.mpr hm.hash)
    rw [List.cons_append, continuations, continuation?_of_plain hm, hs, List.filterMap_cons_some hs,
      List.cons_append, hi fun l hl => h l (List.mem_cons_of_mem m hl)]

theorem plain_of_mem_take_continuations (h : l ∈ ls.take (continuations ls).length) :
    IsPlainComment l :=
  plain_of_mem_take (b := true) h

theorem quiet_of_mem_take_continuations (h : ∀ s ∈ continuations ls, Text.isBlankText s)
    (hl : l ∈ ls.take (continuations ls).length) : Quiet l := by
  have hp := plain_of_mem_take_continuations hl
  have ⟨s, hs⟩ := Option.isSome_iff_exists.mp (isSome_comment?_iff.mpr hp.hash)
  refine quiet_of_comment? hs (h s ?_)
  rw [continuations_eq]
  exact List.mem_filterMap.mpr ⟨l, hl, hs⟩

theorem continued_append_of_blank {text : String} {ss ts : List (List Char)}
    (h : ∀ t ∈ ts, Text.isBlankText t) : continued text (ss ++ ts) = continued text ss := by
  unfold continued
  rw [Text.trim_intercalate_append h]

theorem eventOf?_congr (h : opensText l →
    ∀ s, continued s (continuations ms) = continued s (continuations ls)) :
    eventOf? line l ms = eventOf? line l ls := by
  unfold eventOf?
  unfold opensText at h
  split
  case h_2 => rfl
  case h_1 m hm =>
    split
    case h_1 => rfl
    case h_2 k s hr =>
      simp only [hm, hr] at h
      split
      case isTrue hk  => rw [h hk]
      case isFalse hk => rfl

-- After a text, the lines that are kept do not go on with comments that were not part of it, but
-- for blank ones.
def Separate (keep : List Char → Bool) : List (List Char) → Prop
  | []      => True
  | l :: ls =>
    (opensText l → ∀ s ∈ continuations ((ls.drop (continuations ls).length).filter keep),
      Text.isBlankText s) ∧ Separate keep ls

namespace Separate

variable {keep : List Char → Bool}

def decide : (ls : List (List Char)) → Decidable (Separate keep ls)
  | []      => .isTrue trivial
  | l :: ls =>
    have := decide ls
    inferInstanceAs (Decidable ((opensText l →
      ∀ s ∈ continuations ((ls.drop (continuations ls).length).filter keep),
        Text.isBlankText s) ∧ Separate keep ls))

instance : Decidable (Separate keep ls) :=
  decide ls

theorem drop (h : Separate keep ls) : Separate keep (ls.drop n) := by
  induction ls generalizing n
  case nil => simpa using h
  case cons l ls hi =>
    cases n
    case zero   => exact h
    case succ n => exact hi h.2

-- The lines that a text takes are kept.
theorem filter_eq (hk : ∀ l ∈ ls, IsPlainComment l → keep l) :
    ls.filter keep = ls.take (continuations ls).length ++
      (ls.drop (continuations ls).length).filter keep := by
  conv_lhs => rw [← List.take_append_drop (continuations ls).length ls, List.filter_append]
  congr 1
  refine List.filter_eq_self.mpr fun l hl => ?_
  exact hk l (List.mem_of_mem_take hl) (plain_of_mem_take_continuations hl)

theorem continuations_filter (hk : ∀ l ∈ ls, IsPlainComment l → keep l) :
    continuations (ls.filter keep) = continuations ls ++
      continuations ((ls.drop (continuations ls).length).filter keep) := by
  rw [filter_eq hk, continuations_append_of_plain fun _ => plain_of_mem_take_continuations,
    ← continuations_eq]

-- Behind a text, blank comments that come up to it are passed over as before.
theorem trace_filter_text (hk : ∀ l ∈ ls, IsPlainComment l → keep l)
    (hb : ∀ s ∈ continuations ((ls.drop (continuations ls).length).filter keep),
      Text.isBlankText s) :
    trace (continuations (ls.filter keep)).length (ls.filter keep) =
      trace 0 ((ls.drop (continuations ls).length).filter keep) := by
  let rest := (ls.drop (continuations ls).length).filter keep
  have hlength : (ls.take (continuations ls).length).length = (continuations ls).length := by
    rw [List.length_take, Nat.min_eq_left (length_continuations_le ls)]
  have hquiet : trace 0 rest = trace 0 (rest.drop (continuations rest).length) := by
    conv_lhs => rw [← List.take_append_drop (continuations rest).length rest]
    exact trace_append_of_quiet fun l => quiet_of_mem_take_continuations hb
  rw [continuations_filter hk, trace_eq_drop, List.length_append, filter_eq hk, List.drop_append,
    List.drop_eq_nil_of_le (by omega), List.nil_append, hlength, Nat.add_sub_cancel_left]
  exact hquiet.symm

-- Lines that are left out change nothing then, if they give rise to nothing themselves.
theorem trace_filter (h : Separate keep ls) (hq : ∀ l ∈ ls, keep l = false → Quiet l)
    (hk : ∀ l ∈ ls, IsPlainComment l → keep l) : trace 0 (ls.filter keep) = trace 0 ls := by
  generalize hn : ls.length = n
  induction n using Nat.strongRecOn generalizing ls
  case ind n hi =>
    cases ls
    case nil => rfl
    case cons l ls =>
      have hk' : ∀ m ∈ ls, IsPlainComment m → keep m := fun m hm => hk m (List.mem_cons_of_mem l hm)
      -- What follows the next `k` lines is shorter.
      have hdrop (k : Nat) : trace 0 ((ls.drop k).filter keep) = trace k ls := by
        rw [trace_eq_drop (n := k)]
        refine hi (ls.drop k).length ?_ (Separate.drop h.2)
          (fun m hm => hq m (List.mem_cons_of_mem l (List.mem_of_mem_drop hm)))
          (fun m hm => hk' m (List.mem_of_mem_drop hm)) rfl
        rw [← hn, List.length_cons, List.length_drop]
        omega
      cases hl : keep l
      case false =>
        rw [List.filter_cons_of_neg (by simp [hl]), (hq l List.mem_cons_self hl).trace_cons]
        exact hdrop 0
      case true =>
        rw [List.filter_cons_of_pos hl, trace_zero, trace_zero]
        cases ho : opensText l
        case false =>
          rw [eventOf?_congr (by simp [ho])]
          exact congrArg _ (hdrop 0)
        case true =>
          have hb := h.1 ho
          have hevent : eventOf? 0 l (ls.filter keep) = eventOf? 0 l ls := by
            refine eventOf?_congr fun _ s => ?_
            rw [continuations_filter hk', continued_append_of_blank hb]
          rw [hevent, if_pos rfl, if_pos rfl, trace_filter_text hk' hb, hdrop]

end Separate

-- Without marks there are only functions.
theorem mem_trace_of_unmarked (h : ∀ l ∈ ls, ¬ IsMarked l) (he : e ∈ trace n ls) :
    ∃ name l, l ∈ ls ∧ Defines name l ∧ e = .directive ⟨.function, String.ofList name, 0⟩ := by
  induction ls generalizing n
  case nil => simp [trace, events] at he
  case cons l ls hi =>
    have hrest {n : Nat} (he : e ∈ trace n ls) : ∃ name m, m ∈ l :: ls ∧ Defines name m ∧
        e = .directive ⟨.function, String.ofList name, 0⟩ := by
      obtain ⟨name, m, hm, hd⟩ := hi (fun m hm => h m (List.mem_cons_of_mem l hm)) he
      exact ⟨name, m, List.mem_cons_of_mem l hm, hd⟩
    cases n
    case succ n => exact hrest (trace_succ ▸ he)
    case zero =>
      rw [trace_zero, List.mem_append, Option.mem_toList] at he
      cases he
      case inr he => exact hrest he
      case inl he =>
        rw [eventOf?, marked?_eq_none_iff.mpr (h l List.mem_cons_self)] at he
        obtain ⟨name, hn, rfl⟩ := Option.map_eq_some_iff.mp he
        exact ⟨name, l, List.mem_cons_self, function?_eq_some_iff.mp hn, rfl⟩

section Script

variable {script : String}

theorem map_unlined_directives : (lex script).1.map unlined =
    (trace 0 (Text.lines script.toList)).filterMap Event.directive? := by
  rw [trace, map_unlined_events 0 1, ← eventsOf, lex, List.map_filterMap, List.filterMap_map]
  apply List.filterMap_congr
  intro e _
  cases e <;> rfl

theorem map_unlined_diagnostics : (lex script).2.map Diagnostic.unlined =
    (trace 0 (Text.lines script.toList)).filterMap Event.diagnostic? := by
  rw [trace, map_unlined_events 0 1, ← eventsOf, lex, List.map_filterMap, List.filterMap_map]
  apply List.filterMap_congr
  intro e _
  cases e <;> rfl

end Script

end ShellArgs.Directive
