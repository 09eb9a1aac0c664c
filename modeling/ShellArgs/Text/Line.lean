import ShellArgs.Text.Blank

-- Lines of a text. A line ends at any of the Unicode line boundaries; a carriage return
-- and the line feed after it are one boundary. The text after the last boundary is a line
-- only if it is not empty.

namespace ShellArgs.Text

def isLineBreak (c : Char) : Bool :=
  let n := c.toNat
  (0x0A ≤ n && n ≤ 0x0D) || (0x1C ≤ n && n ≤ 0x1E) || n == 0x85 || n == 0x2028 || n == 0x2029

theorem isBlank_of_isLineBreak {c : Char} (h : isLineBreak c) : isBlank c := by
  simp only [isLineBreak, Bool.or_eq_true, Bool.and_eq_true, decide_eq_true_eq, beq_iff_eq] at h
  simp only [isBlank, Bool.or_eq_true, Bool.and_eq_true, decide_eq_true_eq, beq_iff_eq]
  omega

def extendFirst (c : Char) : List (List Char) → List (List Char)
  | []      => [[c]]
  | l :: ls => (c :: l) :: ls

def lines : List Char → List (List Char)
  | []               => []
  | '\r' :: '\n' :: s => [] :: lines s
  | c :: s           => if isLineBreak c then [] :: lines s else extendFirst c (lines s)

theorem not_isLineBreak_of_mem_lines {s l : List Char} {c : Char} (h : l ∈ lines s) (hc : c ∈ l) :
    isLineBreak c = false := by
  fun_induction lines s generalizing l with
  | case1 => simp at h
  | case2 s ih =>
    rcases List.mem_cons.mp h with rfl | h
    · simp at hc
    · exact ih h hc
  | case3 b s _ _ ih =>
    rcases List.mem_cons.mp h with rfl | h
    · simp at hc
    · exact ih h hc
  | case4 b s _ hb ih =>
    revert h ih
    cases lines s with
    | nil => simp [extendFirst]; rintro rfl; simp_all
    | cons m ms =>
      simp only [extendFirst, List.mem_cons]
      rintro ih (rfl | h)
      · rcases List.mem_cons.mp hc with rfl | hc
        · simpa using hb
        · exact ih (.inl rfl) hc
      · exact ih (.inr h) hc

-- Carriage returns, alone or before a line feed, read as line feeds.
def normalizeLineEnds : List Char → List Char
  | []               => []
  | '\r' :: '\n' :: s => '\n' :: normalizeLineEnds s
  | c :: s           => (if c = '\r' then '\n' else c) :: normalizeLineEnds s

-- The pieces between the occurrences of a doubled separator, found from the left.
def splitOnDouble (sep : Char) : List Char → List (List Char)
  | []          => [[]]
  | [c]         => [[c]]
  | c :: d :: s =>
    if c = sep ∧ d = sep then [] :: splitOnDouble sep s
    else extendFirst c (splitOnDouble sep (d :: s))

end ShellArgs.Text
