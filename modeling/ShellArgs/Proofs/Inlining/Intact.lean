import ShellArgs.Proofs.Inlining.Lines
import ShellArgs.Proofs.Text.Physical

-- Which scripts stay as they are when they get their parser. The lines that are kept are found at
-- all line breaks, and put together with line feeds.

namespace ShellArgs

open Text

namespace Inlining

variable {l : List Char} {ls ms : List (List Char)}

-- A line of which nothing is left at the end of a script.
def isIdle (l : List Char) : Bool :=
  isBlankText l || isEvalLine l

-- The lines that do not compute the parser, up to the last one with text.
def remaining (ls : List (List Char)) : List (List Char) :=
  (ls.filter (!isEvalLine ·)).rdropWhile isBlankText

-- Up to the last line that remains, no line that is kept has a line break in it, and every other
-- line is read as lines that compute the parser, too. After it, nothing is read that has text.
structure Intact (ls : List (List Char)) : Prop where
  kept    : ∀ l ∈ ls.rdropWhile isIdle, isEvalLine l = false → Flat l
  removed : ∀ l ∈ ls.rdropWhile isIdle, isEvalLine l → ∀ m ∈ pieces l, isEvalLine m
  ended   : ∀ l ∈ ls.rtakeWhile isIdle, ∀ m ∈ pieces l, isIdle m

theorem filter_of_kept (h : isEvalLine l = false) :
    (l :: ls).filter (!isEvalLine ·) = l :: ls.filter (!isEvalLine ·) :=
  List.filter_cons_of_pos (by simp [h])

theorem filter_of_removed (h : isEvalLine l) :
    (l :: ls).filter (!isEvalLine ·) = ls.filter (!isEvalLine ·) :=
  List.filter_cons_of_neg (by simp [h])

theorem mem_of_mem_remaining (h : l ∈ remaining ls) : l ∈ ls :=
  List.mem_of_mem_filter ((List.rdropWhile_prefix _ _).subset h)

theorem remaining_eq_nil_iff : remaining ls = [] ↔ ∀ l ∈ ls, isIdle l := by
  rw [remaining, List.rdropWhile_eq_nil_iff]
  simp only [List.mem_filter, isIdle, Bool.or_eq_true, Bool.not_eq_true']
  refine forall_congr' fun l => ?_
  cases isEvalLine l <;> simp

theorem getLast?_rdropWhile {p : List Char → Bool} (h : l ∈ (ls.rdropWhile p).getLast?) : p l = false := by
  obtain ⟨init, he⟩ := List.getLast?_eq_some_iff.mp h
  have hne : ls.rdropWhile p ≠ [] := by simp [he]
  have hlast := List.rdropWhile_last_not _ _ hne
  simpa [he] using hlast

theorem remaining_ne_blank : remaining ls ≠ [[]] := by
  intro h
  have hlast : [] ∈ (remaining ls).getLast? := by rw [h]; rfl
  cases getLast?_rdropWhile hlast

-- What comes before the last line with text remains, if it does not compute the parser.
theorem remaining_append (h : ∀ l ∈ ls.getLast?, isIdle l = false) :
    remaining (ls ++ ms) = ls.filter (!isEvalLine ·) ++ remaining ms := by
  have hls : (ls.filter (!isEvalLine ·)).rdropWhile isBlankText = ls.filter (!isEvalLine ·) := by
    cases hlast : ls.getLast?
    case none =>
      rw [List.getLast?_eq_none_iff.mp hlast]
      rfl
    case some l =>
      obtain ⟨init, rfl⟩ := List.getLast?_eq_some_iff.mp hlast
      have ⟨hb, he⟩ := Bool.or_eq_false_iff.mp (h l hlast)
      rw [List.filter_append, filter_of_kept he, List.filter_nil,
        List.rdropWhile_concat_neg _ _ _ (by simp [hb])]
  rw [remaining, List.filter_append, rdropWhile_append, hls, ← remaining]
  split
  case isTrue hnil => rw [hnil, List.append_nil]
  case isFalse     => rfl

theorem keptLines_eq_remaining (source : String) :
    keptLines source = remaining ((physicalLines source).flatMap pieces) := by
  rcases flatMap_pieces_physicalLines source with h | h <;> rw [h]
  case inl => rfl
  case inr =>
    rw [keptLines, remaining, List.filter_append, rdropWhile_append]
    exact (if_pos (by decide)).symm

-- Where a line that is kept has no line break, it is read as itself.
section Pieces

variable (h : ∀ l ∈ ls, isEvalLine l = false → Flat l)

include h

theorem filter_sublist_pieces :
    (ls.filter (!isEvalLine ·)).Sublist ((ls.flatMap pieces).filter (!isEvalLine ·)) := by
  induction ls with
  | nil => exact .slnil
  | cons l ls hi =>
    have ⟨hl, hls⟩ := List.forall_mem_cons.mp h
    rw [List.flatMap_cons, List.filter_append]
    cases he : isEvalLine l
    case true =>
      rw [filter_of_removed he]
      exact (hi hls).trans (List.sublist_append_right _ _)
    case false =>
      rw [pieces_of_flat (hl he), filter_of_kept he, filter_of_kept he, List.filter_nil]
      exact (hi hls).cons_cons l

theorem filter_pieces_eq_iff :
    (ls.flatMap pieces).filter (!isEvalLine ·) = ls.filter (!isEvalLine ·) ↔
      ∀ l ∈ ls, isEvalLine l → ∀ m ∈ pieces l, isEvalLine m := by
  induction ls with
  | nil => simp
  | cons l ls hi =>
    have ⟨hl, hls⟩ := List.forall_mem_cons.mp h
    rw [List.flatMap_cons, List.filter_append, List.forall_mem_cons, ← hi hls]
    cases he : isEvalLine l
    case false =>
      rw [pieces_of_flat (hl he), filter_of_kept he, filter_of_kept he, List.filter_nil]
      simp
    case true =>
      have hle := (filter_sublist_pieces hls).length_le
      rw [filter_of_removed he]
      constructor
      · intro heq
        have hlen := congrArg List.length heq
        rw [List.length_append] at hlen
        have hnil : (pieces l).filter (!isEvalLine ·) = [] := List.length_eq_zero_iff.mp (by omega)
        refine ⟨fun _ m hm => ?_, by simpa [hnil] using heq⟩
        simpa using List.filter_eq_nil_iff.mp hnil m hm
      · rintro ⟨hm, heq⟩
        rw [heq, List.filter_eq_nil_iff.mpr (by simpa using hm rfl), List.nil_append]

end Pieces

theorem remaining_pieces_iff : remaining (ls.flatMap pieces) = remaining ls ↔ Intact ls := by
  let body := ls.rdropWhile isIdle
  let rest := ls.rtakeWhile isIdle
  have hsplit : body ++ rest = ls := List.rdropWhile_append_rtakeWhile
  have hlines : remaining ls = body.filter (!isEvalLine ·) := by
    have hrest : remaining rest = [] := remaining_eq_nil_iff.mpr fun l => List.mem_rtakeWhile_imp
    rw [← hsplit, remaining_append fun l => getLast?_rdropWhile, hrest, List.append_nil]
  have hpieces (hk : ∀ l ∈ body, isEvalLine l = false → Flat l) : remaining (ls.flatMap pieces) =
      (body.flatMap pieces).filter (!isEvalLine ·) ++ remaining (rest.flatMap pieces) := by
    rw [← hsplit, List.flatMap_append]
    refine remaining_append fun m hm => ?_
    cases hlast : body.getLast?
    case none => simp [List.getLast?_eq_none_iff.mp hlast] at hm
    case some l =>
      have hl : isIdle l = false := getLast?_rdropWhile hlast
      have hflat := hk l (List.mem_of_getLast? hlast) (Bool.or_eq_false_iff.mp hl).2
      obtain ⟨init, he⟩ := List.getLast?_eq_some_iff.mp hlast
      rw [he, List.flatMap_append, List.flatMap_singleton, pieces_of_flat hflat,
        List.getLast?_concat] at hm
      cases hm
      exact hl
  constructor
  · intro h
    have hk : ∀ l ∈ body, isEvalLine l = false → Flat l := by
      intro l hl he
      have hm : l ∈ remaining ls := hlines ▸ List.mem_filter.mpr ⟨hl, by simp [he]⟩
      obtain ⟨p, _, hp⟩ := List.mem_flatMap.mp (mem_of_mem_remaining (h ▸ hm))
      exact flat_of_mem_lines hp
    have hle := (filter_sublist_pieces hk).length_le
    rw [hpieces hk, hlines] at h
    have hlen := congrArg List.length h
    rw [List.length_append] at hlen
    have hnil : remaining (rest.flatMap pieces) = [] := List.length_eq_zero_iff.mp (by omega)
    rw [hnil, List.append_nil] at h
    refine ⟨hk, (filter_pieces_eq_iff hk).mp h, fun l hl m hm => ?_⟩
    exact remaining_eq_nil_iff.mp hnil m (List.mem_flatMap.mpr ⟨l, hl, hm⟩)
  · rintro ⟨hk, hr, he⟩
    have hnil : remaining (rest.flatMap pieces) = [] := by
      rw [remaining_eq_nil_iff]
      intro m hm
      obtain ⟨l, hl, hm⟩ := List.mem_flatMap.mp hm
      exact he l hl m hm
    rw [hpieces hk, hlines, hnil, (filter_pieces_eq_iff hk).mpr hr, List.append_nil]

end Inlining

open Inlining

-- A script is changed in nothing else, unless there are other line breaks than line feeds in it.
theorem inlined_eq_iff {source code : String} : inlined source code =
      "\n".intercalate ((remaining (physicalLines source)).map String.ofList) ++ "\n\n" ++ code ↔
    Intact (physicalLines source) := by
  have hjoin (ls : List (List Char)) :
      ("\n".intercalate (ls.map String.ofList)).toList = ['\n'].intercalate ls := by
    simp [Function.comp_def]
  rw [← remaining_pieces_iff, ← keptLines_eq_remaining, inlined, ← String.toList_inj]
  simp only [String.toList_append, List.append_cancel_right_eq, hjoin]
  refine ⟨fun h => eq_of_intercalate_eq ?_ ?_ ?_ ?_ h, fun h => by rw [h]⟩
  case refine_1 => exact fun l hl hn => absurd (flat_of_mem_keptLines hl '\n' hn) (by decide)
  case refine_2 => exact fun l hl => (mem_splitOn (mem_of_mem_remaining hl)).1
  case refine_3 => exact remaining_ne_blank
  case refine_4 => exact remaining_ne_blank

-- A form feed within a text becomes a line feed.
example : inlined "printf 'a\x0cb'\n" "main" = "printf 'a\nb'\n\nmain" := by
  decide +kernel

end ShellArgs
