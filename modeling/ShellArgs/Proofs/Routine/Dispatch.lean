import ShellArgs.Proofs.Routine.Names
import ShellArgs.Routine.Parse

namespace ShellArgs

namespace Shell

-- The statement gives a variable a word as its value. What stands in a substitution does not, as
-- it is run by a shell of its own.
def Statement.Gives (var word : String) : Statement → Prop
  | text s   => s.toList.takeWhile (· ≠ ' ') = (var ++ "=" ++ word).toList
  | assign a => a = ⟨var, false, .scalar word⟩
  | _        => False

def Statement.IsArm : Statement → Prop
  | arm _ => True
  | _     => False

-- No line has such a statement.
def Without (P : Statement → Prop) (ls : List Line) : Prop :=
  ∀ l ∈ ls, ¬ P l.statement

section Without

variable {α : Type} {P : Statement → Prop} {l : Line} {ls ms : List Line} {test : String}

@[simp] theorem without_nil : Without P [] :=
  fun _ h => nomatch h

@[simp] theorem without_cons : Without P (l :: ls) ↔ ¬ P l.statement ∧ Without P ls :=
  List.forall_mem_cons

@[simp] theorem without_append : Without P (ls ++ ms) ↔ Without P ls ∧ Without P ms :=
  List.forall_mem_append

@[simp] theorem without_indent : Without P (indent ls) ↔ Without P ls :=
  List.forall_mem_map

@[simp] theorem without_flatMap {as : List α} {f : α → List Line} :
    Without P (as.flatMap f) ↔ ∀ a ∈ as, Without P (f a) := by
  simp only [Without, List.mem_flatMap]
  exact ⟨fun h a ha l hl => h l ⟨a, ha, hl⟩, fun h l ⟨a, ha, hl⟩ => h a ha l hl⟩

theorem without_conditional (hif : ¬ P (.text ("if " ++ test ++ "; then")))
    (hfi : ¬ P (.text "fi")) : Without P (conditional test ls) ↔ Without P ls := by
  simp only [conditional, without_append, without_indent]
  exact ⟨fun h => h.1.2, fun h => ⟨⟨List.forall_mem_singleton.mpr hif, h⟩,
    List.forall_mem_singleton.mpr hfi⟩⟩

end Without

@[simp] theorem Statement.statement_line (s : Statement) : s.line.statement = s :=
  rfl

@[simp] theorem statement_line (s : String) : (line s).statement = .text s :=
  rfl

@[simp] theorem statement_assignLine (var : String) (v : Assigned) :
    (assignLine var v).statement = .assign ⟨var, false, v⟩ :=
  rfl

@[simp] theorem statement_appendLine (var : String) (v : Assigned) :
    (appendLine var v).statement = .assign ⟨var, true, v⟩ :=
  rfl

@[simp] theorem statement_shiftLine (n : Option Nat) : (shiftLine n).statement = .shift n :=
  rfl

@[simp] theorem statement_armLine (ps : List Pattern) : (armLine ps).statement = .arm ps :=
  rfl

end Shell

namespace Routine

open Shell

variable {c : Command} {p : Param} {children : List Command} {o : Options} {stem : String}
variable {l : Line} {ls ms : List Line} {k : Int}

-- The statement chooses the routine that is run next.
def Chooses (k : Int) (s : Statement) : Prop :=
  s.Gives nextVar (parseName k)

def Quiet (ls : List Line) : Prop :=
  ∀ k, Without (Chooses k) ls

-- Only the routines of some commands are chosen, each one right behind the opening of an arm for
-- the words that call its command.
def Dispatches (children : List Command) (ls : List Line) : Prop :=
  ∀ front l back k, ls = front ++ l :: back → Chooses k l.statement → ∃ d ∈ children, d.index = k ∧
    ∃ front' opener, front = front' ++ [opener] ∧
      opener.statement = .arm (d.callNames.map .exactly)

section Chooses

variable {s : String} {a : Assignment}

-- A text that starts otherwise than an assignment to the variable does.
@[simp] theorem not_chooses_text (h : ¬ "_argsh_next=".toList <+: s.toList) :
    ¬ Chooses k (.text s) := by
  intro hs
  refine h (List.IsPrefix.trans ?_ (List.takeWhile_prefix (· ≠ ' ')))
  rw [show s.toList.takeWhile (· ≠ ' ') = (nextVar ++ "=" ++ parseName k).toList from hs]
  exact ⟨(parseName k).toList, by simp [nextVar]⟩

@[simp] theorem chooses_assign :
    Chooses k (.assign a) ↔ a = ⟨nextVar, false, .scalar (parseName k)⟩ :=
  Iff.rfl

@[simp] theorem not_chooses_shift {n : Option Nat} : ¬ Chooses k (.shift n) :=
  id

@[simp] theorem not_chooses_needValues {form words : String} {n : Nat} :
    ¬ Chooses k (.needValues form n words) :=
  id

@[simp] theorem not_chooses_overArray {element array : String} :
    ¬ Chooses k (.overArray element array) :=
  id

@[simp] theorem not_chooses_arm {ps : List Pattern} : ¬ Chooses k (.arm ps) :=
  id

-- No quoted value is the name of a routine, and no number.
@[simp] theorem ne_parseName (h : ¬ "_".toList <+: s.toList) : ¬ s = parseName k := by
  rintro rfl
  simp [parseName_eq] at h

@[simp] theorem doubleQuoted_ne_parseName : ¬ doubleQuoted s = parseName k := by
  simp [doubleQuoted]

@[simp] theorem expandQuoted_ne_parseName : ¬ expandQuoted s = parseName k :=
  doubleQuoted_ne_parseName

end Chooses

section Arms

theorem quiet_repetitionGuard : Quiet (repetitionGuard p stem) := by
  intro k
  unfold repetitionGuard
  split <;> simp

theorem quiet_raiseFlag : Quiet (raiseFlag p stem) := by
  intro k
  simp only [raiseFlag, without_append, quiet_repetitionGuard k, true_and]
  split <;> simp

theorem not_chooses_assignValues {var : String} {values : List String} :
    ¬ Chooses k (assignValues p var values).statement := by
  unfold assignValues
  split <;> simp

theorem quiet_takeValues : Quiet (takeValues p stem) := by
  intro k
  simp only [takeValues, without_append, quiet_repetitionGuard k]
  split <;> simp [not_chooses_assignValues]

theorem quiet_takeAttached : Quiet (takeAttached p stem) := by
  intro k
  simp only [takeAttached, without_append, quiet_repetitionGuard k, true_and]
  split
  case isTrue  => split <;> simp
  case isFalse => simp [not_chooses_assignValues]

theorem quiet_action {a : Action} (h : ∀ ds, a ≠ .takeWord ds) : Quiet (a.lines stem) := by
  cases a
  case raiseFlag    => exact quiet_raiseFlag
  case takeValues   => exact quiet_takeValues
  case takeAttached => exact quiet_takeAttached
  case splitCluster =>
    simp [Quiet, Action.lines, splitCluster, ClusterForm.lines, refuse, armEnd]
  case takeWord ds  => exact absurd rfl (h ds)
  all_goals simp [Quiet, Action.lines, usageName, collect, refuse]

end Arms

namespace Dispatches

variable {ds : List Command}

theorem of_quiet (h : Quiet ls) : Dispatches children ls := by
  rintro front l back k rfl hl
  exact absurd hl (h k l (by simp))

theorem append (h : Dispatches children ls) (h' : Dispatches children ms) :
    Dispatches children (ls ++ ms) := by
  intro front l back k he hl
  obtain ⟨mid, rfl, hm⟩ | ⟨mid, rfl, hm⟩ := List.append_eq_append_iff.mp he
  case inl =>
    obtain ⟨d, hd, hi, front', opener, rfl, ho⟩ := h' mid l back k hm hl
    exact ⟨d, hd, hi, ls ++ front', opener, by simp, ho⟩
  case inr =>
    cases mid
    case nil =>
      obtain ⟨d, hd, hi, front', opener, he, ho⟩ := h' [] l back k hm.symm hl
      simp at he
    case cons m mid =>
      obtain ⟨rfl, rfl⟩ := List.cons.inj hm
      exact h front l mid k rfl hl

theorem indent (h : Dispatches children ls) : Dispatches children (indent ls) := by
  intro front l back k he hl
  obtain ⟨front, rest, rfl, rfl, hr⟩ := List.map_eq_append_iff.mp he
  obtain ⟨l, back, rfl, rfl, rfl⟩ := List.map_eq_cons_iff.mp hr
  obtain ⟨d, hd, hi, front', opener, rfl, ho⟩ := h front l back k rfl hl
  exact ⟨d, hd, hi, _, _, List.map_append, ho⟩

theorem flatMap {α : Type} {as : List α} {f : α → List Line}
    (h : ∀ a ∈ as, Dispatches children (f a)) : Dispatches children (as.flatMap f) := by
  induction as
  case nil => exact of_quiet fun _ => without_nil
  case cons a as hi =>
    have ⟨ha, has⟩ := List.forall_mem_cons.mp h
    exact ha.append (hi has)

theorem opened {opener : Line} (ho : opener.statement = .arm (c.callNames.map .exactly))
    (hc : c ∈ children) (hl : ∀ k, Chooses k l.statement → c.index = k) (h : Quiet ls) :
    Dispatches children (opener :: l :: ls) := by
  intro front m back k he hm
  cases front
  case nil =>
    cases he
    rw [ho] at hm
    exact hm.elim
  case cons first front =>
    obtain ⟨rfl, hr⟩ := List.cons.inj he
    cases front
    case nil =>
      cases hr
      exact ⟨c, hc, hl k hm, [], opener, rfl, ho⟩
    case cons second front =>
      obtain ⟨rfl, rfl⟩ := List.cons.inj hr
      exact absurd hm (h k m (by simp))

theorem childArm (h : c ∈ children) : Dispatches children (childArm c) := by
  refine opened rfl h (fun k hl => ?_) fun k => ?_
  case refine_1 => simpa [parseName_inj] using chooses_assign.mp hl
  case refine_2 => simp [armEnd]

theorem callChild (h : ∀ d ∈ ds, d ∈ children) : Dispatches children (callChild ds) := by
  unfold Routine.callChild
  split
  case isTrue => exact of_quiet fun _ => without_nil
  case isFalse =>
    have harms : Dispatches children (ds.flatMap Routine.childArm) :=
      flatMap fun d hd => childArm (h d hd)
    have hcase : Dispatches children
        ([line ("case " ++ doubleQuoted "$1" ++ " in")] ++ ds.flatMap Routine.childArm ++
          [line "esac"]) :=
      ((of_quiet (by simp [Quiet])).append harms).append (of_quiet (by simp [Quiet]))
    exact ((of_quiet (by simp [Quiet])).append hcase.indent).append (of_quiet (by simp [Quiet]))

theorem action {a : Action} (h : ∀ ds, a = .takeWord ds → ds = children) :
    Dispatches children (a.lines stem) := by
  cases a
  case takeWord ds =>
    exact (callChild (h ds rfl ▸ fun _ => id)).append (of_quiet (by simp [Quiet, collect]))
  all_goals exact of_quiet (quiet_action nofun)

theorem arm {a : Arm} (h : ∀ ds, a.action = .takeWord ds → ds = children) :
    Dispatches children (a.lines stem) := by
  have hopener : Dispatches children [armLine a.patterns] := of_quiet (by simp [Quiet])
  have hbody : Dispatches children (a.action.lines stem ++ [armEnd]) :=
    (action h).append (of_quiet (by simp [Quiet, armEnd]))
  exact hopener.append hbody.indent

end Dispatches

-- Only the last arm takes words.
theorem eq_of_takeWord_mem_arms {a : Arm} {ds : List Command} (h : a ∈ arms c children o)
    (hw : a.action = .takeWord ds) : ds = children := by
  simp only [arms, List.mem_append, List.mem_flatMap] at h
  rcases h with ((((⟨p, _, h⟩ | h) | h) | h) | h) | h
  case inl.inl.inl.inl.inl =>
    unfold paramArms at h
    split at h <;> grind
  all_goals grind

theorem dispatches_wordLoop : Dispatches children (wordLoop c children o) := by
  have harms : Dispatches children ((arms c children o).flatMap (·.lines o.stem)) :=
    .flatMap fun a ha => .arm fun _ hw => eq_of_takeWord_mem_arms ha hw
  have hcase : Dispatches children
      ([line ("case " ++ doubleQuoted "$1" ++ " in")] ++
        (arms c children o).flatMap (·.lines o.stem) ++ [line "esac"]) :=
    ((Dispatches.of_quiet (by simp [Quiet])).append harms).append (.of_quiet (by simp [Quiet]))
  exact ((Dispatches.of_quiet (by simp [Quiet])).append hcase.indent).append
    (.of_quiet (by simp [Quiet]))

end Routine

end ShellArgs
