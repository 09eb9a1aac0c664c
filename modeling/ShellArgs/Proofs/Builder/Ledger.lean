import ShellArgs.Proofs.Builder.Run

-- No command gets lost without a report: each one becomes a node, waits for its function, or has
-- been reported, and never two of these at once.

namespace ShellArgs

open Outcome

-- The line of a command that waits for its function.
def Scope.waiting? : Scope → Option Int
  | .command p => some p.line
  | _          => none

-- A command waits until the next function. Another command takes its place.
def Directive.waiting? (line? : Option Int) (d : Directive) : Option Int :=
  match d.kind with
  | .command  => some d.line
  | .function => none
  | _         => line?

def Directive.isCommand (d : Directive) : Bool :=
  d.kind = .command

-- The root is the only node that is no command's.
theorem Tree.Sound.length_nodes {t : Tree} (s : t.Sound) :
    t.nodes.length = t.nodes.countP (!·.isRoot) + 1 := by
  have ⟨r, hr, hp⟩ := s.root
  obtain ⟨cs, hn⟩ : ∃ cs, t.nodes = r :: cs := by
    cases hn : t.nodes <;> simp_all
  have hcs : ∀ c ∈ cs, !c.isRoot := by
    intro c hc
    have ⟨i, hi⟩ := List.getElem?_of_mem hc
    have ⟨_, _, _, _, hpc, _⟩ := s.parent (i := i + 1) (c := c) (by rw [hn]; exact hi) (by omega)
    simp [Command.isRoot, hpc]
  rw [hn, List.countP_cons_of_neg (by simp [Command.isRoot, hp]), List.countP_eq_length.mpr hcs]
  rfl

namespace Builder

variable {b b' : Builder} {d : Directive} {ds : List Directive}

theorem waiting_of_outside (hs : ∀ p, b.scope ≠ .command p) : b.scope.waiting? = none := by
  cases hb : b.scope
  case command p => exact absurd hb (hs p)
  case header    => rfl
  case closed    => rfl

theorem Step.waiting (h : Step b d b') : b'.scope.waiting? = d.waiting? b.scope.waiting? := by
  have hinner (hd : d.kind ≠ .command ∧ d.kind ≠ .function) (l : Option Int) : d.waiting? l = l := by
    unfold Directive.waiting?
    split
    case h_1 hk => exact absurd hk hd.1
    case h_2 hk => exact absurd hk hd.2
    case h_3    => rfl
  cases h
  case refused hk _ _     => rw [hinner hk]; rfl
  case header hs _ _ hd _ => rw [hinner hd.kind_ne, hs]
  case pending hs hl hd   => rw [hinner hd.kind_ne, hs]; exact congrArg some hl
  case opened hk _        => simp [Directive.waiting?, hk, Scope.waiting?]
  case reopened hk _      => simp [Directive.waiting?, hk, Scope.waiting?]
  case passed hk hs       => simp [Directive.waiting?, hk, waiting_of_outside hs]
  case main hk hs         => simp [Directive.waiting?, hk, modifyRoot, waiting_of_outside hs]
  case unnamed hk _ _ _   => simp [Directive.waiting?, hk, reportAll, Scope.waiting?]
  case named hk _ _ _ _   => simp [Directive.waiting?, hk, Scope.waiting?]

-- The nodes, the reports of losses, and the command that waits.
def accounted (b : Builder) : Nat :=
  b.tree.nodes.length + b.diagnostics.countP (·.tellsLoss) + b.scope.waiting?.toList.length

theorem Step.accounted (h : Step b d b') :
    b'.accounted = b.accounted + if d.isCommand then 1 else 0 := by
  have hnot (hd : d.kind ≠ .command) : d.isCommand = false := by simp [Directive.isCommand, hd]
  have hkept {es : List Diagnostic} (he : ∀ e ∈ es, e.tellsLoss = false) :
      es.countP (·.tellsLoss) = 0 := List.countP_eq_zero.mpr fun e hm => by simp [he e hm]
  cases h <;> simp only [Builder.accounted]
  case refused hk e he => simp [hnot hk.1, reportAll, he.2]
  case header es hs _ _ hd hw =>
    have := hkept fun e he => Diagnostic.tellsLoss_of_not_isError (hw e he)
    simp [hnot hd.kind_ne.1, hs, this]
  case pending hs _ hd => simp [hnot hd.kind_ne.1, hs, Scope.waiting?]
  case opened hk hs    => simp [Directive.isCommand, hk, Scope.waiting?]
  -- The report replaces the command that waited.
  case reopened p hk hs =>
    have := Problem.tellsLoss_located .missingFunction p.line
    simp [Directive.isCommand, hk, hs, report, Scope.waiting?, this, Problem.isLoss, Nat.add_assoc]
  case passed hk _ => simp [hnot (by simp [hk])]
  case main hk _   => simp [hnot (by simp [hk]), modifyRoot]
  case unnamed hk hs e he =>
    simp [hnot (by simp [hk]), hs, reportAll, he.2, Scope.waiting?, Nat.add_assoc]
  case named es hk hs _ _ hc =>
    have := hkept hc.kept
    simp [hnot (by simp [hk]), hs, this, Scope.waiting?, Tree.length_nodes_grown]
    omega

-- What is left to account for at the end of a script is a command that still waits.
theorem accounted_eq (b : Builder) : b.accounted = b.tree.nodes.length +
    (b.diagnostics ++ b.endProblems).countP (·.tellsLoss) := by
  unfold accounted endProblems
  cases b.scope
  case command p => simp [Scope.waiting?, Problem.isLoss, Nat.add_assoc]
  case header    => simp [Scope.waiting?]
  case closed    => simp [Scope.waiting?]

end Builder

end ShellArgs
