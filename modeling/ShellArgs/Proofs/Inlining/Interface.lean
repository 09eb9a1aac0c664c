import ShellArgs.Proofs.Generation
import ShellArgs.Proofs.Inlining.Checked
import ShellArgs.Proofs.Routine.Silent

-- A script with its parser put in has the commands, parameters and functions that it had before,
-- as long as its usage texts do not read like parts of a script.

namespace ShellArgs

open Outcome Text

variable {text code : String} {o : Options} {c : Compilation}

theorem Tree.exists_script {t : Tree} (h : t.generate o = .ok code) :
    ∃ s, t.script o = .ok s ∧ code = s.written := by
  unfold generate at h
  split at h
  case h_1 => cases h
  case h_2 =>
    split at h
    case h_1 => cases h
    case h_2 =>
      split at h
      case h_1 => cases h
      case h_2 s hs =>
        cases h
        exact ⟨s, hs, rfl⟩

-- Where there is code, the script was accepted, and the code is that of its tree.
theorem exists_script_of_compile (h : compile text o = .ok c) (hc : c.code = some code) :
    check text = .ok c.report ∧ c.report.ok ∧
      ∃ s, c.report.tree.script o = .ok s ∧ code = s.written := by
  unfold compile at h
  split at h
  case h_2 => cases h
  case h_1 r hr =>
    unfold Report.compile at h
    split at h
    case isFalse => cases h; cases hc
    case isTrue ho =>
      obtain ⟨code', hcode, h⟩ := bind_eq_ok_iff.mp h
      cases h
      cases hc
      exact ⟨hr, ho, Tree.exists_script hcode⟩

theorem check_inlined (h : compile text o = .ok c) (hc : c.code = some code)
    (hs : Shell.isName o.stem.toList) (hp : OneLine o.prog)
    (he : Directive.Separate (!Inlining.isEvalLine ·) (lines text.toList))
    (hu : ∀ d ∈ c.report.tree.nodes, ∀ usage, Routine.usageText c.report.tree d o = .ok usage →
      Silent c.report.tree.HasMain usage) :
    ∃ r, check (inlined text code) = .ok r ∧ r.ok ∧
      r.tree.unlined = c.report.tree.unlined := by
  obtain ⟨hr, ho, s, hscript, rfl⟩ := exists_script_of_compile h hc
  have hsilent := Tree.silent_script (flat_of_check hr) hs hp hu hscript
  exact check_inlined_of_lines hr ho he (fun l hl => (hsilent l hl).1) fun l hl => (hsilent l hl).2

-- A script with a main function, of which its description tells, and the line that computes its
-- parser.
def mailing : String :=
  "# @describe main () mails to @all\n# @cmd Send\nsend() \x7b :; \x7d\nmain() \x7b :; \x7d\n" ++
    "eval \"$(argsh compile \"$0\")\"\n"

-- That the usage text reads like a main function does no harm there.
theorem check_inlined_mailing : ∃ c code, compile mailing {} = .ok c ∧ c.code = some code ∧
    Shell.isName ({} : Options).stem.toList ∧ OneLine ({} : Options).prog ∧
    Directive.Separate (!Inlining.isEvalLine ·) (lines mailing.toList) ∧
    (∀ d ∈ c.report.tree.nodes, ∀ usage, Routine.usageText c.report.tree d {} = .ok usage →
      Silent c.report.tree.HasMain usage) ∧
    ∃ r, check (inlined mailing code) = .ok r ∧ r.ok ∧
      r.tree.unlined = c.report.tree.unlined := by
  let root : Command :=
    { index := 0, help := "main () mails to @all", children := [("send", 1)], func := some "main" }
  let send : Command :=
    { index := 1, name := "send", help := "Send", parent := some 0, func := some "send", line := 2 }
  let r : Report := { tree := ⟨[root, send]⟩, diagnostics := [], directives := 4 }
  have hr : check mailing = .ok r := by decide +kernel
  have ⟨c, hc, hreport, hcode⟩ := Report.compile_eq_ok hr {}
  have ⟨code, hcode⟩ := Option.isSome_iff_exists.mp (hcode.mpr rfl)
  have hmain : r.tree.HasMain := ⟨root, rfl, by decide⟩
  have hunmarked : ∀ d ∈ r.tree.nodes, (Routine.usageText r.tree d {}).toOption.all fun usage =>
      (lines usage.toList).all fun l => !(Directive.marked? l).isSome := by
    decide +kernel
  have hu : ∀ d ∈ c.report.tree.nodes, ∀ usage,
      Routine.usageText c.report.tree d {} = .ok usage → Silent c.report.tree.HasMain usage := by
    rw [hreport]
    intro d hd usage husage l hl
    have hl : (!(Directive.marked? l).isSome) = true := by
      have := hunmarked d hd
      rw [husage] at this
      exact List.all_eq_true.mp this l hl
    rw [Bool.not_eq_true', Bool.eq_false_iff, ne_eq, Directive.isSome_marked?_iff] at hl
    exact ⟨hl, fun _ => hmain⟩
  have hstem : Shell.isName ({} : Options).stem.toList := by decide
  have hprog : OneLine ({} : Options).prog := by decide
  have he : Directive.Separate (!Inlining.isEvalLine ·) (lines mailing.toList) := by decide +kernel
  have hcompile : compile mailing {} = .ok c := by
    rw [compile, hr]
    exact hc
  -- In two steps: in one, Lean evaluates the script to compare the sides of `he`.
  have hinlined := check_inlined hcompile hcode hstem hprog
  exact ⟨c, code, hcompile, hcode, hstem, hprog, he, hu, hinlined he hu⟩

end ShellArgs
