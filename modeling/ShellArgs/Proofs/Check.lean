import ShellArgs.Compilation
import ShellArgs.Proofs.Builder.Run
import ShellArgs.Proofs.Tree.Rejection

namespace ShellArgs

open Outcome

variable {text : String} {r : Report}

theorem check_eq_ok (text : String) :
    ∃ t problems fs, Tree.ofDirectives (Directive.lex text).1 = .ok (t, problems) ∧ t.Sound ∧
      t.findings = .ok fs ∧
      check text = .ok {
        tree := t
        diagnostics := Diagnostic.sorted ((Directive.lex text).2 ++ problems ++
          Diagnostic.sorted (fs.map Finding.diagnostic))
        directives := (Directive.lex text).1.length
      } := by
  have ⟨t, problems, ht, s⟩ := Tree.ofDirectives_eq_ok (Directive.lex text).1
  have ⟨fs, hfs, _⟩ := s.findings_eq_ok
  have hv : t.validate = .ok (Diagnostic.sorted (fs.map Finding.diagnostic)) := by
    rw [Tree.validate, hfs]
    rfl
  exact ⟨t, problems, fs, ht, s, hfs, by simp [check, ht, hv]⟩

theorem sound_of_check (h : check text = .ok r) : r.tree.Sound := by
  have ⟨_, _, _, _, s, _, hc⟩ := check_eq_ok text
  cases h.symm.trans hc
  exact s

-- In an accepted script, no part of the work has found an error.
structure Accepted (text : String) (t : Tree) (problems : List Diagnostic) (fs : List Finding) :
    Prop where
  tree       : Tree.ofDirectives (Directive.lex text).1 = .ok (t, problems)
  sound      : t.Sound
  findings   : t.findings = .ok fs
  lexical    : ∀ d ∈ (Directive.lex text).2, d.isError = false
  structural : ∀ d ∈ problems, d.isError = false
  warnings   : ∀ f ∈ fs, f.violation.severity = .warning

theorem accepted_of_check (h : check text = .ok r) (ho : r.ok) :
    ∃ problems fs, Accepted text r.tree problems fs := by
  have ⟨t, problems, fs, ht, s, hfs, hc⟩ := check_eq_ok text
  cases h.symm.trans hc
  have hall : ∀ d ∈ (Directive.lex text).2 ++ problems ++
      Diagnostic.sorted (fs.map Finding.diagnostic), d.isError = false := by
    intro d hd
    simp only [Report.ok, Diagnostic.anyError, Bool.not_eq_true', List.any_eq_false] at ho
    simpa using ho d ((Diagnostic.sorted_perm _).mem_iff.mpr hd)
  refine ⟨problems, fs, ht, s, hfs, ?_, ?_, ?_⟩
  · exact fun d hd => hall d (List.mem_append_left _ (List.mem_append_left _ hd))
  · exact fun d hd => hall d (List.mem_append_left _ (List.mem_append_right _ hd))
  · intro f hf
    have hm : f.diagnostic ∈ Diagnostic.sorted (fs.map Finding.diagnostic) :=
      (Diagnostic.sorted_perm _).mem_iff.mpr (List.mem_map_of_mem hf)
    have := hall _ (List.mem_append_right _ hm)
    cases hs : f.violation.severity
    case warning => rfl
    case error   => simp [Diagnostic.isError, Finding.diagnostic, hs] at this

theorem Accepted.not_breaks {t : Tree} {problems : List Diagnostic} {fs : List Finding} {c : Command}
    (a : Accepted text t problems fs) (hc : c ∈ t.nodes) : ¬ c.Breaks := by
  have ⟨gs, hgs, hm⟩ := a.sound.joined.findings_eq_ok a.sound.unambiguous
  cases a.findings.symm.trans hgs
  have ⟨_, _, hf, _⟩ := a.sound.joined.commandFindings_eq_ok a.sound.unambiguous hc
  apply (Tree.commandFindings_warn_iff a.sound.joined a.sound.unambiguous hc hf).mp
  exact fun f h => a.warnings f ((hm f).mpr ⟨c, hc, _, hf, h⟩)

end ShellArgs
