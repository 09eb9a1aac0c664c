import ShellArgs.Shell.Word

namespace ShellArgs.Shell

inductive Glob where
  | text (s : String)         -- these characters, whatever they mean elsewhere
  | char                      -- any one character
  | charExcept (c : Char)     -- any one character but `c`
  | rest                      -- any characters, or none
deriving DecidableEq, Repr

namespace Glob

def written : Glob → String
  | .text s       => quote s
  | .char         => "?"
  | .charExcept c => "[!" ++ String.singleton c ++ "]"
  | .rest         => "*"

def covers : List Glob → List Char → Bool
  | [],                   s      => s.isEmpty
  | .text t :: gs,        s      => t.toList.isPrefixOf s && covers gs (s.drop t.toList.length)
  | .char :: _,           []     => false
  | .char :: gs,          _ :: s => covers gs s
  | .charExcept _ :: _,   []     => false
  | .charExcept c :: gs,  d :: s => c != d && covers gs s
  | .rest :: gs,          []     => covers gs []
  | .rest :: gs,          c :: s => covers gs (c :: s) || covers (.rest :: gs) s
termination_by gs s => gs.length + s.length
decreasing_by all_goals simp_wf <;> omega

@[simp] theorem covers_nil {s : List Char} : covers [] s = s.isEmpty := by
  simp [covers]

@[simp] theorem covers_rest {s : List Char} : covers [.rest] s = true := by
  induction s with
  | nil         => simp [covers]
  | cons _ _ hi => simp [covers, hi]

@[simp] theorem covers_text {t : String} {s : List Char} :
    covers [.text t] s = true ↔ s = t.toList := by
  simp only [covers, Bool.and_eq_true, List.isPrefixOf_iff_prefix, List.isEmpty_iff,
    List.drop_eq_nil_iff]
  constructor
  · rintro ⟨h, hl⟩
    exact (h.eq_of_length (Nat.le_antisymm h.length_le hl)).symm
  · rintro rfl
    simp

end Glob

structure Pattern where
  parts : List Glob
deriving DecidableEq, Repr

namespace Pattern

def written (p : Pattern) : String :=
  String.join (p.parts.map Glob.written)

def covers (p : Pattern) (word : String) : Bool :=
  Glob.covers p.parts word.toList

def exactly (word : String) : Pattern :=
  ⟨[.text word]⟩

def startingWith (word : String) : Pattern :=
  ⟨[.text word, .rest]⟩

@[simp] theorem covers_exactly {word w : String} : (exactly word).covers w = true ↔ w = word := by
  simp [covers, exactly, String.toList_inj]

def alternatives (ps : List Pattern) : String :=
  "|".intercalate (ps.map written) ++ ")"

end Pattern

end ShellArgs.Shell
