import ShellArgs.Inlining
import ShellArgs.Proofs.Directive.Trace

-- The lines of a script with its parser: the kept lines of the script, at least one blank line,
-- and the lines of the parser. What they give rise to is what each of the two gives rise to.

namespace ShellArgs

open Directive

namespace Inlining

variable {l s t : List Char} {text code : String}

theorem eq_of_after? {start : String} (h : after? start s = some t) : s = start.toList ++ t := by
  unfold after? at h
  split at h
  case isFalse => cases h
  case isTrue hp =>
    cases h
    exact (List.prefix_iff_eq_append.mp (List.isPrefixOf_iff_prefix.mp hp)).symm

theorem exists_of_afterBlanks? (h : afterBlanks? s = some t) :
    ∃ spaces, s = spaces ++ t ∧ ∀ c ∈ spaces, Text.isBlank c := by
  obtain ⟨spaces, u, rfl, hs, hu⟩ := exists_run Text.isBlank s
  refine ⟨spaces, ?_, hs⟩
  have ht : t = Text.trimLeft (spaces ++ u) := by
    unfold afterBlanks? at h
    split at h
    case h_2 => cases h
    case h_1 =>
      split at h <;> cases h
      rfl
  rw [ht, Text.trimLeft, dropWhile_run hs hu]

theorem exists_of_afterQuote (h : afterQuote s = '$' :: t) :
    ∃ c u, s = c :: u ∧ c ∈ ['"', '\'', '$'] := by
  unfold afterQuote at h
  split at h
  case h_1 => exact ⟨_, _, rfl, by simp⟩
  case h_2 => exact ⟨_, _, rfl, by simp⟩
  case h_3 => exact ⟨_, _, h, by simp⟩

-- A call of `eval` with a command substitution.
theorem exists_of_isEvalLine (h : isEvalLine l) : ∃ indent spaces c rest,
    l = indent ++ ("eval".toList ++ (spaces ++ c :: rest)) ∧ (∀ d ∈ indent, Text.isBlank d) ∧
      (∀ d ∈ spaces, Text.isBlank d) ∧ c ∈ ['"', '\'', '$'] := by
  obtain ⟨indent, body, rfl, hi, hb⟩ := exists_run Text.isBlank l
  simp only [isEvalLine, Text.trimLeft, dropWhile_run hi hb] at h
  cases hword : after? "eval" body
  case none => simp [hword] at h
  case some u =>
    cases hblanks : afterBlanks? u
    case none => simp [hword, hblanks] at h
    case some v =>
      cases hopen : after? "$(" (afterQuote v)
      case none => simp [hword, hblanks, hopen] at h
      case some w =>
        obtain ⟨spaces, rfl, hs⟩ := exists_of_afterBlanks? hblanks
        obtain ⟨c, rest, rfl, hc⟩ := exists_of_afterQuote (eq_of_after? hopen)
        exact ⟨indent, spaces, c, rest, by rw [eq_of_after? hword], hi, hs, hc⟩

theorem head?_of_isEvalLine (h : isEvalLine l) : l.head? ≠ some '#' := by
  obtain ⟨indent, spaces, c, rest, rfl, hi, _⟩ := exists_of_isEvalLine h
  intro hh
  cases indent
  case nil => cases hh
  case cons d indent =>
    cases hh
    exact absurd (hi '#' List.mem_cons_self) (by decide)

theorem quiet_of_isEvalLine (h : isEvalLine l) : Quiet l where
  unmarked hm := head?_of_isEvalLine h (head?_of_isMarked hm)
  undefining name := by
    obtain ⟨indent, spaces, c, rest, rfl, hi, hs, hc⟩ := exists_of_isEvalLine h
    have hstop : Text.isBlank c = false ∧ Shell.isFunctionChar c = false ∧ c ≠ '(' := by
      simp only [List.mem_cons, List.not_mem_nil, or_false] at hc
      rcases hc with rfl | rfl | rfl <;> decide
    have hword := List.all_eq_true.mp (show "eval".toList.all Shell.isFunctionChar by decide)
    refine not_defines_of_word hi (head?_cons (by decide)) hword hs ?_
    rintro d ⟨⟩
    exact hstop

-- The lines that are not removed.
theorem exists_keptLines (source : String) : ∃ blanks,
    (Text.lines source.toList).filter (!isEvalLine ·) = keptLines source ++ blanks ∧
      ∀ b ∈ blanks, Text.isBlankText b := by
  let ls := (Text.lines source.toList).filter (!isEvalLine ·)
  refine ⟨(ls.reverse.takeWhile Text.isBlankText).reverse, ?_, fun b hb => ?_⟩
  · rw [keptLines, ← List.reverse_append, List.takeWhile_append_dropWhile, List.reverse_reverse]
  · exact List.mem_takeWhile_imp (List.mem_reverse.mp hb)

theorem flat_of_mem_keptLines (h : l ∈ keptLines text) : Text.Flat l := by
  have ⟨blanks, he, _⟩ := exists_keptLines text
  have hm : l ∈ (Text.lines text.toList).filter (!isEvalLine ·) := he ▸ List.mem_append_left _ h
  exact Text.flat_of_mem_lines (List.mem_of_mem_filter hm)

end Inlining

open Inlining

variable {text : String}

theorem lines_inlined (text code : String) : Text.lines (inlined text code).toList =
    (if keptLines text = [] then [[]] else keptLines text) ++ [] :: Text.lines code.toList := by
  have hlist : (inlined text code).toList =
      ['\n'].intercalate (keptLines text) ++ '\n' :: '\n' :: code.toList := by
    simp [inlined, Function.comp_def]
  rw [hlist]
  split
  case isTrue h =>
    rw [h]
    exact Text.lines_lineFeed.trans (congrArg ([] :: ·) Text.lines_lineFeed)
  case isFalse h =>
    rw [Text.lines_intercalate h fun l => flat_of_mem_keptLines, Text.lines_lineFeed]

-- The parser comes after the script, and takes nothing from it.
theorem trace_inlined (code : String) (h : Separate (!isEvalLine ·) (Text.lines text.toList)) :
    trace 0 (Text.lines (inlined text code).toList) =
      trace 0 (Text.lines text.toList) ++ trace 0 (Text.lines code.toList) := by
  have ⟨blanks, hkept, hblanks⟩ := exists_keptLines text
  have hscript : trace 0 (Text.lines text.toList) = trace 0 (keptLines text) := by
    rw [← h.trace_filter, hkept, trace_append_of_blank hblanks]
    case hq => exact fun l _ hl => quiet_of_isEvalLine (by simpa using hl)
    case hk =>
      intro l _ hp
      simp only [Bool.not_eq_true', Bool.eq_false_iff]
      exact fun he => head?_of_isEvalLine he hp.hash
  rw [lines_inlined, trace_append_blank (by rfl) (Nat.zero_le _), hscript]
  congr 1
  split
  case isTrue hnil => rw [hnil]; rfl
  case isFalse     => rfl

end ShellArgs
