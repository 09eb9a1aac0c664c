import Mathlib.Data.List.DropRight
import ShellArgs.Proofs.Text.Lines

-- The physical lines of a text, which end at line feeds only. Each of them is read as one line or,
-- since there are other line breaks, as several ones.

namespace ShellArgs.Text

variable {c : Char} {s t l : List Char} {ls ms : List (List Char)} {p : List Char → Bool}

def physicalLines (s : String) : List (List Char) :=
  s.toList.splitOn '\n'

-- The lines that a physical line is read as.
def pieces (l : List Char) : List (List Char) :=
  lines (l ++ ['\n'])

section Splitting

theorem mem_splitOn (h : l ∈ s.splitOn c) : c ∉ l ∧ l.Sublist s := by
  induction s generalizing l with
  | nil =>
    rw [List.splitOn_nil, List.mem_singleton] at h
    simp [h]
  | cons d s hi =>
    rw [List.splitOn_cons_eq_if_modifyHead] at h
    obtain ⟨m, ms, hs⟩ := List.exists_cons_of_ne_nil (List.splitOn_ne_nil c s)
    rw [hs] at h hi
    have later (hl : l ∈ m :: ms) : c ∉ l ∧ l.Sublist (d :: s) := (hi hl).imp_right (.cons d)
    split at h
    case isTrue =>
      rcases List.mem_cons.mp h with rfl | h
      case inl => exact ⟨List.not_mem_nil, List.nil_sublist _⟩
      case inr => exact later h
    case isFalse hd =>
      rcases List.mem_cons.mp h with rfl | h
      case inr => exact later (List.mem_cons_of_mem m h)
      case inl =>
        have ⟨hc, hm⟩ := hi List.mem_cons_self
        refine ⟨?_, hm.cons_cons d⟩
        rw [List.mem_cons, not_or]
        exact ⟨fun hc => hd (by simp [hc]), hc⟩

-- The pieces of what is joined are those of each part.
theorem splitOn_intercalate (h : ls ≠ []) : ([c].intercalate ls).splitOn c = ls.flatMap (·.splitOn c) := by
  induction ls with
  | nil => exact absurd rfl h
  | cons l ls hi =>
    cases ls
    case nil => simp
    case cons l' ls =>
      rw [List.flatMap_cons, List.intercalate_cons_cons, List.append_assoc, List.singleton_append,
        List.splitOn_append_cons_self, hi (List.cons_ne_nil l' ls)]

theorem splitOn_append_left (h : c ∉ t) : (t ++ s).splitOn c = (s.splitOn c).modifyHead (t ++ ·) := by
  induction t with
  | nil => cases hs : s.splitOn c <;> simp [hs]
  | cons d t hi =>
    have ⟨hd, ht⟩ := not_or.mp (List.mem_cons.not.mp h)
    rw [List.cons_append, List.splitOn_cons_eq_if_modifyHead, if_neg (by simpa using Ne.symm hd), hi ht,
      List.modifyHead_modifyHead]
    rfl

-- What comes after a text stands on its last line.
theorem splitOn_append_right (h : c ∉ t) : ∃ init last,
    s.splitOn c = init ++ [last] ∧ (s ++ t).splitOn c = init ++ [last ++ t] := by
  induction s with
  | nil => exact ⟨[], [], rfl, List.splitOn_eq_singleton h⟩
  | cons d s hi =>
    obtain ⟨init, last, hs, hst⟩ := hi
    rw [List.cons_append, List.splitOn_cons_eq_if_modifyHead, List.splitOn_cons_eq_if_modifyHead, hs, hst]
    split
    case isTrue  => exact ⟨[] :: init, last, rfl, rfl⟩
    case isFalse =>
      cases init
      case nil         => exact ⟨[], d :: last, rfl, rfl⟩
      case cons l init => exact ⟨(d :: l) :: init, last, rfl, rfl⟩

-- Lines that end with a text are determined by what they join to.
theorem eq_of_intercalate_eq (hl : ∀ l ∈ ls, '\n' ∉ l) (hm : ∀ l ∈ ms, '\n' ∉ l) (hle : ls ≠ [[]])
    (hme : ms ≠ [[]]) (h : ['\n'].intercalate ls = ['\n'].intercalate ms) : ls = ms := by
  have hsplit {ks : List (List Char)} (hk : ∀ l ∈ ks, '\n' ∉ l) :
      (['\n'].intercalate ks).splitOn '\n' = if ks = [] then [[]] else ks := by
    split
    case isTrue hn  => rw [hn]; rfl
    case isFalse hn => exact List.splitOn_intercalate _ hk hn
  have he := (hsplit hl).symm.trans ((congrArg _ h).trans (hsplit hm))
  by_cases hln : ls = [] <;> by_cases hmn : ms = [] <;> simp_all

theorem physicalLines_intercalate {ss : List String} (h : ss ≠ []) :
    physicalLines ("\n".intercalate ss) = ss.flatMap physicalLines := by
  have hlist : ("\n".intercalate ss).toList = ['\n'].intercalate (ss.map String.toList) := by simp
  rw [physicalLines, hlist, splitOn_intercalate (by simpa using h), List.flatMap_map]
  rfl

end Splitting

theorem pieces_ne_nil : pieces l ≠ [] := by
  intro h
  simpa using lines_eq_nil h

theorem pieces_of_flat (h : Flat l) : pieces l = [l] :=
  lines_append_lineFeed h

theorem extendFirst_append (h : ls ≠ []) : extendFirst c (ls ++ ms) = extendFirst c ls ++ ms := by
  obtain ⟨l, ls, rfl⟩ := List.exists_cons_of_ne_nil h
  rfl

-- A line feed ends a line in any case.
theorem lines_append_pieces (s t : List Char) : lines (s ++ '\n' :: t) = pieces s ++ lines t := by
  fun_induction lines s with
  | case1 => exact lines_lineFeed
  | case2 s hi =>
    rw [pieces, List.cons_append, List.cons_append, lines, hi, pieces, List.cons_append,
      List.cons_append, lines, List.cons_append]
  | case3 c s hn hc hi =>
    by_cases hr : c = '\r' ∧ s = []
    case pos =>
      obtain ⟨rfl, rfl⟩ := hr
      simp [pieces, lines]
    case neg =>
      rw [lines_break hc hn hr, hi, pieces, pieces, lines_break hc hn hr, List.cons_append]
  | case4 c s hn hc hi =>
    have hc : isLineBreak c = false := by simpa using hc
    rw [List.cons_append, lines_cons hc, hi, extendFirst_append pieces_ne_nil, pieces, pieces,
      List.cons_append, lines_cons hc]

theorem flatMap_pieces (h : ls ≠ []) :
    ls.flatMap pieces = lines (['\n'].intercalate ls ++ ['\n']) := by
  induction ls with
  | nil => exact absurd rfl h
  | cons l ls hi =>
    cases ls
    case nil => simp [pieces]
    case cons l' ls =>
      rw [List.flatMap_cons, hi (List.cons_ne_nil l' ls), List.intercalate_cons_cons,
        List.append_assoc, List.append_assoc, List.singleton_append, lines_append_pieces l]

-- All that is read from a text, up to an empty line at its end.
theorem flatMap_pieces_physicalLines (s : String) :
    (physicalLines s).flatMap pieces = lines s.toList ∨
      (physicalLines s).flatMap pieces = lines s.toList ++ [[]] := by
  rw [physicalLines, flatMap_pieces (List.splitOn_ne_nil _ _), List.intercalate_splitOn]
  simpa [lines] using lines_append_cases s.toList []

theorem rdropWhile_append : (ls ++ ms).rdropWhile p =
    if ms.rdropWhile p = [] then ls.rdropWhile p else ls ++ ms.rdropWhile p := by
  simp only [List.rdropWhile, List.reverse_append, List.dropWhile_append, List.isEmpty_iff,
    List.reverse_eq_nil_iff]
  split
  case isTrue  => rfl
  case isFalse => rw [List.reverse_append, List.reverse_reverse]

end ShellArgs.Text
