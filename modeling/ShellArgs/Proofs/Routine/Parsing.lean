import ShellArgs.Proofs.Tree.Sound
import ShellArgs.Routine.Arm

namespace ShellArgs.Routine

open Shell

-- The command whose routine runs, the names of the options and flags that were given to it, the
-- words that were collected for its positionals, and the words ahead.
structure Parsing where
  command : Command
  given : List String := []
  collected : List String := []
  ended : Bool := false
  words : List String
deriving DecidableEq

namespace ClusterForm

-- The words that take the place of a cluster.
def split (f : ClusterForm) (word : String) : List String :=
  let rest := word.toList.drop 2
  if f.takesValue then [f.form ++ "=" ++ String.ofList rest]
  else [f.form, String.ofList ('-' :: rest)]

-- The form that a cluster begins with.
def first? (fs : List ClusterForm) (word : String) : Option ClusterForm :=
  fs.find? fun f => (Pattern.exactly f.form).covers (String.ofList (word.toList.take 2))

end ClusterForm

def Arm.covers (a : Arm) (word : String) : Bool :=
  a.patterns.any (·.covers word)

-- Words that values must not look like.
def optionLike : Pattern :=
  ⟨[.text "-", .char, .rest]⟩

-- The words after a number of values, if there are that many.
def afterValues? (n : Nat) (ws : List String) : Option (List String) :=
  if n ≤ ws.length ∧ ∀ w ∈ ws.take n, optionLike.covers w = false then some (ws.drop n) else none

namespace Parsing

variable {t : Tree} {o : Options}

-- A parameter that does not repeat cannot be given twice.
def give? (s : Parsing) (p : Param) : Option Parsing :=
  if p.multiple = false ∧ p.name ∈ s.given then none else some { s with given := s.given ++ [p.name] }

-- What an action does with the words, where `w` is the first one. Some actions end the script.
def act? (s : Parsing) (w : String) (ws : List String) : Action → Option Parsing
  | .raiseFlag p         => do return { ← s.give? p with words := ws }
  | .refuseValue _       => none
  | .takeValues p        => do
    return { ← s.give? p with words := ← afterValues? p.valuesPerOccurrence ws }
  | .takeAttached p      => do
    return { ← s.give? p with words := ← afterValues? (p.valuesPerOccurrence - 1) ws }
  | .showUsage _         => none
  | .showVersion _       => none
  | .endOptions          => some { s with collected := s.collected ++ ws, ended := true, words := [] }
  | .refuseLong          => none
  | .splitCluster forms  => do
    return { s with words := (← ClusterForm.first? forms w).split w ++ ws }
  | .refuseShort         => none
  | .takeWord children   =>
    match if s.collected = [] then children.find? (w ∈ ·.callNames) else none with
    | some c => some { command := c, words := ws }
    | none   => some { s with collected := s.collected ++ [w], words := ws }

-- The first arm for a word.
def arm? (t : Tree) (o : Options) (c : Command) (w : String) : Option Arm := do
  let children ← (t.childrenOf c).toOption
  (arms c children o).find? (·.covers w)

-- One step. There is none without words, and none if the script ends.
def step? (t : Tree) (o : Options) (s : Parsing) : Option Parsing :=
  match s.words with
  | []      => none
  | w :: ws => do s.act? w ws (← arm? t o s.command w).action

-- The rest of a cluster that a step puts back in front of the words.
def requeued? (t : Tree) (o : Options) (s : Parsing) : Option String :=
  match s.words with
  | []     => none
  | w :: _ => do
    let .splitCluster forms := (← arm? t o s.command w).action | none
    let f ← ClusterForm.first? forms w
    if f.takesValue then none else some (String.ofList ('-' :: w.toList.drop 2))

-- Steps from states with a property.
inductive Steps (t : Tree) (o : Options) (P : Parsing → Prop) : Parsing → Parsing → Prop
  | refl : Steps t o P s s
  | step (hp : P s₁) (h : s₁.step? t o = some s₂) (hs : Steps t o P s₂ s₃) : Steps t o P s₁ s₃

-- All words are consumed without an end of the script on the way.
def Consumed (t : Tree) (o : Options) (s : Parsing) : Prop :=
  ∃ s', Steps t o (fun _ => True) s s' ∧ s'.words = []

theorem Consumed.exists_step {s : Parsing} (h : s.Consumed t o) (hw : s.words ≠ []) :
    ∃ s', s.step? t o = some s' ∧ s'.Consumed t o := by
  have ⟨s', hs, he⟩ := h
  cases hs
  case refl       => exact absurd he hw
  case step _ h hs => exact ⟨_, h, s', hs, he⟩

theorem Steps.consumed {P : Parsing → Prop} {s s' : Parsing} (hs : Steps t o P s s')
    (h : s'.Consumed t o) : s.Consumed t o := by
  induction hs
  case refl => exact h
  case step hstep _ hi =>
    have ⟨s', hs, hw⟩ := hi h
    exact ⟨s', .step trivial hstep hs, hw⟩

end Parsing

end ShellArgs.Routine
