import ShellArgs.Text.Cut
import ShellArgs.Tree.Builder

-- The problems that cost a script a command. A command that does not become a node has just one
-- of them, and its report can be told from all others by its message.

namespace ShellArgs

namespace Text

-- Texts that part from each other do not meet again.
theorem startsWith_eq_false_of_apart {s t u : String} (h : startsWith s t = false)
    (h' : startsWith t s = false) (hu : startsWith u s) : startsWith u t = false := by
  rw [Bool.eq_false_iff, ne_eq, startsWith_iff] at *
  intro ht
  cases List.prefix_or_prefix_of_prefix ht hu
  case inl ht => exact h ht
  case inr hs => exact h' hs

end Text

namespace Diagnostic

-- How the messages about lost commands begin.
def lossHeads : List String :=
  ["@cmd is not followed by a function definition", "invalid command function name '",
    "unknown parent command '", "duplicate command name '"]

-- Tells of a command that has no function, or whose function gives it no place in the tree.
def tellsLoss (d : Diagnostic) : Bool :=
  d.isError && d.stage = .tree && lossHeads.any (Text.startsWith d.message)

theorem tellsLoss_of_not_isError {d : Diagnostic} (h : d.isError = false) : d.tellsLoss = false := by
  simp [tellsLoss, h]

end Diagnostic

namespace Builder

namespace Problem

def isLoss : Problem → Bool
  | missingFunction | malformedFunction _ | unknownParent .. | repeatedCommand _ => true
  | _                                                                            => false

-- The beginning of a message, up to the first word that is not always the same.
def head : Problem → String
  | missingFunction     => "@cmd is not followed by a function definition"
  | stranded _          => "'@"
  | repeatedDescription => "duplicate @describe for the script"
  | headerOnly _        => "'@"
  | aliasesInHeader     => "@alias must follow a @cmd directive"
  | malformedEnv _      => "@env expects 'VARIABLE param', got '"
  | repeatedHook _      => "duplicate '@"
  | malformedFunction _ => "invalid command function name '"
  | unknownParent ..    => "unknown parent command '"
  | repeatedCommand _   => "duplicate command name '"
  | repeatedName ..     => "duplicate alias '"
  | takenName ..        => "alias '"
  | unknownTarget ..    => "@env binds "
  | rebound ..          => "parameter '"

theorem startsWith_head (pr : Problem) : Text.startsWith pr.message pr.head := by
  have append {s t : String} (u : String) (h : Text.startsWith s t) : Text.startsWith (s ++ u) t :=
    Text.startsWith_trans h (Text.startsWith_append s u)
  cases pr
  case missingFunction     => exact Text.startsWith_self _
  case stranded            => exact append _ (append _ (Text.startsWith_append _ _))
  case repeatedDescription => exact Text.startsWith_self _
  case headerOnly          => exact append _ (Text.startsWith_append _ _)
  case aliasesInHeader     => exact Text.startsWith_self _
  case malformedEnv        => exact append _ (Text.startsWith_append _ _)
  case repeatedHook        => exact append _ (Text.startsWith_append _ _)
  case malformedFunction   => exact append _ (Text.startsWith_append _ _)
  case unknownParent       =>
    exact append _ (append _ (append _ (append _ (Text.startsWith_append _ _))))
  case repeatedCommand     => exact append _ (Text.startsWith_append _ _)
  case repeatedName        => exact append _ (append _ (append _ (Text.startsWith_append _ _)))
  case takenName           =>
    exact append _ (append _ (append _ (append _ (append _ (Text.startsWith_append _ _)))))
  case unknownTarget       => exact append _ (append _ (append _ (Text.startsWith_append _ _)))
  case rebound             =>
    exact append _ (append _ (append _ (append _ (Text.startsWith_append _ _))))

theorem severity_of_isLoss {pr : Problem} (h : pr.isLoss) : pr.severity = .error := by
  cases pr <;> first | rfl | cases h

theorem head_mem_of_isLoss {pr : Problem} (h : pr.isLoss) : pr.head ∈ Diagnostic.lossHeads := by
  cases pr
  case missingFunction   => exact .head _
  case malformedFunction => exact .tail _ (.head _)
  case unknownParent     => exact .tail _ (.tail _ (.head _))
  case repeatedCommand   => exact .tail _ (.tail _ (.tail _ (.head _)))
  all_goals cases h

-- The beginnings of all other messages part from those about lost commands.
theorem startsWith_of_not_isLoss {pr : Problem} (h : pr.isLoss = false) : ∀ s ∈ Diagnostic.lossHeads,
    Text.startsWith pr.head s = false ∧ Text.startsWith s pr.head = false := by
  cases pr
  case missingFunction   => cases h
  case malformedFunction => cases h
  case unknownParent     => cases h
  case repeatedCommand   => cases h
  all_goals (simp only [head]; decide)

@[simp] theorem tellsLoss_located (pr : Problem) (line : Int) :
    (pr.located line).tellsLoss = pr.isLoss := by
  have hany : (pr.located line).tellsLoss =
      ((pr.located line).isError && Diagnostic.lossHeads.any (Text.startsWith pr.message)) := by
    simp [Diagnostic.tellsLoss, located]
  rw [hany]
  cases h : pr.isLoss
  case true =>
    rw [List.any_eq_true.mpr ⟨pr.head, head_mem_of_isLoss h, pr.startsWith_head⟩, Bool.and_true]
    simp [Diagnostic.isError, located, severity_of_isLoss h]
  case false =>
    have hnone : Diagnostic.lossHeads.any (Text.startsWith pr.message) = false := by
      refine List.any_eq_false.mpr fun s hs => ?_
      have ⟨h₁, h₂⟩ := startsWith_of_not_isLoss h s hs
      rw [Text.startsWith_eq_false_of_apart h₁ h₂ pr.startsWith_head]
      exact Bool.false_ne_true
    rw [hnone, Bool.and_false]

end Problem

-- Variables that cannot be bound cost no command.
theorem not_tellsLoss_of_mem_bindEnv {es : List EnvBinding} {ps : List Param} :
    ∀ d ∈ (bindEnv es ps).2, d.tellsLoss = false := by
  induction es generalizing ps
  case nil => simp [bindEnv]
  case cons e es hi =>
    intro d hd
    unfold bindEnv at hd
    split at hd
    case h_1 =>
      cases List.mem_cons.mp hd
      case inl hd => rw [hd, Problem.tellsLoss_located]; rfl
      case inr hd => exact hi d hd
    case h_2 p _ =>
      cases List.mem_append.mp hd
      case inr hd => exact hi d hd
      case inl hd =>
        split at hd
        case h_2 => cases hd
        case h_1 =>
          split at hd
          case isFalse => cases hd
          case isTrue  => rw [List.mem_singleton.mp hd, Problem.tellsLoss_located]; rfl

end Builder

end ShellArgs
