import ShellArgs.Proofs.Builder.Scopes
import ShellArgs.Proofs.Check

-- The way from a text to its code never breaks off. Tables have rows when they are laid out,
-- commands are where references lead, and nothing is generated that is not checked before.

namespace ShellArgs

open Outcome

namespace Routine

variable {t : Tree} {c : Command} {o : Options}

theorem formsColumn_eq_ok {fs : List String} (h : fs ≠ []) : ∃ s, formsColumn fs = .ok s := by
  match fs with
  | []               => exact absurd rfl h
  | [_]              => exact ⟨_, rfl⟩
  | [_, _]           => exact ⟨_, rfl⟩
  | _ :: _ :: _ :: _ => exact ⟨_, rfl⟩

theorem formsRow_eq_ok (fs : List String) (meaning : String) :
    ∃ rows, formsRow fs meaning = .ok rows := by
  unfold formsRow
  split
  case isTrue  => exact ⟨_, rfl⟩
  case isFalse h =>
    have ⟨s, hs⟩ := formsColumn_eq_ok (show fs ≠ [] by simpa using h)
    exact ⟨_, by rw [hs]; rfl⟩

theorem formatRows_eq_ok {rows : List UsageRow} (h : rows ≠ []) : ∃ s, formatRows rows = .ok s := by
  unfold formatRows
  split
  case h_1 hw => simp [h] at hw
  case h_2    => exact ⟨_, rfl⟩

theorem table_eq_ok (title : String) (rows : List UsageRow) : ∃ ss, table title rows = .ok ss := by
  unfold table
  split
  case isTrue    => exact ⟨_, rfl⟩
  case isFalse h =>
    have ⟨s, hs⟩ := formatRows_eq_ok (show rows ≠ [] by simpa using h)
    exact ⟨_, by rw [hs]; rfl⟩

theorem optionRows_eq_ok (c : Command) (o : Options) : ∃ rows, optionRows c o = .ok rows := by
  have ⟨help, hh⟩ := formsRow_eq_ok (helpForms c o) "Print help"
  have ⟨versions, hv⟩ := formsRow_eq_ok (versionForms c o) "Print version"
  exact ⟨_, by rw [optionRows, hh, ok_bind, hv]; rfl⟩

theorem callPath_eq_ok (j : t.Joined) (h : c ∈ t.nodes) (o : Options) :
    ∃ s, callPath t c o = .ok s := by
  have ⟨path, hp⟩ := j.path_eq_ok h
  exact ⟨_, by rw [callPath, hp]; rfl⟩

-- A usage text can fail for no other reason than a reference that cannot be followed.
theorem exists_usageText {children : List Command} {path : List String}
    (hc : t.childrenOf c = .ok children) (hp : t.path c = .ok path) (o : Options) :
    ∃ text, usageText t c o = .ok text := by
  have ⟨args, ha⟩ := table_eq_ok "ARGS" (c.positionals.map Param.usageRow)
  have ⟨rows, hr⟩ := optionRows_eq_ok c o
  have ⟨options, ho⟩ := table_eq_ok "OPTIONS" rows
  have ⟨commands, hs⟩ := table_eq_ok "COMMANDS" (children.map childRow)
  simp only [usageText, callPath, hc, hp, ha, hr, ho, hs, ok_bind, pure_eq_ok]
  exact ⟨_, rfl⟩

theorem usageText_eq_ok (j : t.Joined) (h : c ∈ t.nodes) (o : Options) :
    ∃ text, usageText t c o = .ok text := by
  have ⟨_, hp⟩ := j.path_eq_ok h
  exact exists_usageText (j.childrenOf_eq_ok h) hp o

theorem usageRoutine_eq_ok (j : t.Joined) (h : c ∈ t.nodes) (o : Options) :
    ∃ f, usageRoutine t c o = .ok f := by
  have ⟨text, ht⟩ := usageText_eq_ok j h o
  exact ⟨_, by rw [usageRoutine, ht]; rfl⟩

theorem parseRoutine_eq_ok (j : t.Joined) (h : c ∈ t.nodes) (o : Options) :
    ∃ f, parseRoutine t c o = .ok f := by
  have ⟨path, hp⟩ := callPath_eq_ok j h o
  exact ⟨_, by rw [parseRoutine, j.childrenOf_eq_ok h, ok_bind, hp]; rfl⟩

end Routine

namespace Tree

variable {t : Tree}

theorem script_eq_ok (j : t.Joined) (o : Options) : ∃ s, t.script o = .ok s := by
  have ⟨cs, hcs, hm⟩ := j.walk_eq_ok
  have hroutines : ∀ c ∈ cs, ∃ fs, (do
      return [← Routine.parseRoutine t c o, ← Routine.usageRoutine t c o]) = Except.ok fs := by
    intro c hc
    have ⟨f, hf⟩ := Routine.parseRoutine_eq_ok j ((hm c).mp hc) o
    have ⟨g, hg⟩ := Routine.usageRoutine_eq_ok j ((hm c).mp hc) o
    exact ⟨[f, g], by rw [hf, ok_bind, hg]; rfl⟩
  have ⟨routines, hr⟩ := exists_mapM hroutines
  exact ⟨_, by rw [script, hcs, ok_bind, hr, ok_bind, hooks, hcs]; rfl⟩

-- Code is refused only to trees in which there are errors.
theorem generate_eq_ok {ds : List Diagnostic} {o : Options} {s : Script} (hv : t.validate = .ok ds)
    (he : Diagnostic.anyError ds = false) (hs : t.script o = .ok s) :
    t.generate o = .ok s.written := by
  simp only [generate, hv, Diagnostic.anyError_eq_false_iff.mp he, hs]

end Tree

theorem Report.compile_eq_written {text : String} {r : Report} {o : Options} {s : Script}
    (h : check text = .ok r) (ho : r.ok) (hs : r.tree.script o = .ok s) :
    r.compile o = .ok ⟨r, some s.written⟩ := by
  have ⟨problems, fs, a⟩ := accepted_of_check h ho
  have hv : r.tree.validate = .ok (Diagnostic.sorted (fs.map Finding.diagnostic)) := by
    rw [Tree.validate, a.findings]
    rfl
  have hg := Tree.generate_eq_ok hv (Finding.anyError_eq_false_iff.mpr a.warnings) hs
  simp [Report.compile, ho, hg]

theorem Report.compile_eq_ok {text : String} {r : Report} (h : check text = .ok r) (o : Options) :
    ∃ c, r.compile o = .ok c ∧ c.report = r ∧ (c.code.isSome ↔ r.ok) := by
  by_cases ho : r.ok
  case pos =>
    have ⟨problems, fs, a⟩ := accepted_of_check h ho
    have ⟨s, hs⟩ := Tree.script_eq_ok a.sound.joined o
    exact ⟨_, compile_eq_written h ho hs, rfl, by simp [ho]⟩
  case neg => exact ⟨⟨r, none⟩, by simp [Report.compile, ho], rfl, by simp [ho]⟩

end ShellArgs
