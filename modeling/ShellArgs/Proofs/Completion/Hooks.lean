import ShellArgs.Completion.Words
import ShellArgs.Proofs.Completion.Degrading
import ShellArgs.Proofs.Generation
import ShellArgs.Proofs.Shell.Reading

-- Which functions of a script are called for candidates. Only those of parameters of the command at
-- the cursor are, and the code of an accepted script answers to all of them.

namespace ShellArgs

open Outcome

namespace Script

open Shell

-- Whether a line of the dispatch takes the name of a function, as the shell reads an arm.
def answers (hooks : List String) (fn : String) : Bool :=
  (hookDispatch hooks).any fun l =>
    (readPatterns [] .bare l.statement.written.toList).any (·.any (·.covers fn))

theorem alternatives_exactly (fns : List String) :
    Pattern.alternatives (fns.map .exactly) = "|".intercalate (fns.map quote) ++ ")" := by
  have hwritten : Pattern.written ∘ Pattern.exactly = quote := by
    funext fn
    simp [Pattern.written, Pattern.exactly, Glob.written, String.join]
  rw [Pattern.alternatives, List.map_map, hwritten]

-- One line of the dispatch is an arm.
theorem texts_hookDispatch {fns : List String} (h : fns ≠ []) :
    ∃ before after : List String, (hookDispatch fns).map (·.statement.written) =
      before ++ Pattern.alternatives (fns.map .exactly) :: after ∧
      ∀ s ∈ before ++ after, readPatterns [] .bare s.toList = none := by
  refine ⟨["if [ -n \"$\x7bARGSH_HOOK:-\x7d\" ]; then", "case \"$ARGSH_HOOK\" in"],
    ["\"$ARGSH_HOOK\" \"$@\"", "exit", ";;", "esac",
      "_argsh_die \"unknown completion hook '$ARGSH_HOOK'\"", "fi"], ?_, by decide +kernel⟩
  rw [alternatives_exactly, hookDispatch, if_neg (by simpa using h)]
  rfl

theorem covers_characters (p : Pattern) (w : String) : p.characters.covers w = p.covers w := by
  rw [Pattern.covers, Pattern.characters, Glob.covers_characters]
  rfl

theorem answers_iff {fns : List String} {fn : String} : answers fns fn ↔ fn ∈ fns := by
  by_cases h : fns = []
  case pos => simp [h, answers, hookDispatch]
  case neg =>
    have ⟨before, after, htexts, hnone⟩ := texts_hookDispatch h
    have hread := readPatterns_alternatives (show fns.map Pattern.exactly ≠ [] by simpa using h)
    let takes (s : String) : Bool := (readPatterns [] .bare s.toList).any (·.any (·.covers fn))
    have hbefore : before.any takes = false := by
      rw [List.any_eq_false]
      intro s hs
      simp [takes, hnone s (List.mem_append_left _ hs)]
    have hafter : after.any takes = false := by
      rw [List.any_eq_false]
      intro s hs
      simp [takes, hnone s (List.mem_append_right _ hs)]
    have hany : answers fns fn = ((hookDispatch fns).map (·.statement.written)).any takes := by
      rw [List.any_map]
      rfl
    rw [hany, htexts, List.any_append, List.any_cons, hbefore, hafter]
    simp [takes, hread, covers_characters]

end Script

namespace Tree

variable {t : Tree} {o : Options} {s : Script} {fn : String}

theorem hooks_eq_ok (j : t.Joined) : ∃ hooks, t.hooks = .ok hooks ∧ hooks.Nodup ∧
    ∀ fn, fn ∈ hooks ↔ ∃ c ∈ t.nodes, ∃ p ∈ c.params, nonempty? p.choicesFn = some fn := by
  have ⟨cs, hcs, hm⟩ := j.walk_eq_ok
  refine ⟨_, by rw [hooks, hcs]; rfl, Completion.nodup_eraseDups _, fun fn => ?_⟩
  simp [hm]

theorem hooks_of_script (h : t.script o = .ok s) : t.hooks = .ok s.hooks := by
  have ⟨cs, _, h⟩ := bind_eq_ok_iff.mp h
  have ⟨routines, _, h⟩ := bind_eq_ok_iff.mp h
  have ⟨hooks, hh, h⟩ := bind_eq_ok_iff.mp h
  cases h
  exact hh

end Tree

-- The code of an accepted script is written from the script of its tree.
theorem Accepted.generate_eq_ok {text : String} {t : Tree} {problems : List Diagnostic}
    {fs : List Finding} (a : Accepted text t problems fs) (o : Options) :
    ∃ s, t.script o = .ok s ∧ t.generate o = .ok s.written := by
  have ⟨s, hs⟩ := Tree.script_eq_ok a.sound.joined o
  have hv : t.validate = .ok (Diagnostic.sorted (fs.map Finding.diagnostic)) := by
    rw [Tree.validate, a.findings]
    rfl
  have he := Diagnostic.anyError_eq_false_iff.mp (Finding.anyError_eq_false_iff.mpr a.warnings)
  exact ⟨s, hs, by simp only [Tree.generate, hv, he, hs]⟩

-- Flags of an accepted script have no functions that compute choices.
theorem Accepted.kind_ne_flag {text fn : String} {t : Tree} {problems : List Diagnostic}
    {fs : List Finding} {c : Command} {p : Param} (a : Accepted text t problems fs) (hc : c ∈ t.nodes)
    (hp : p ∈ c.params) (hfn : nonempty? p.choicesFn = some fn) : p.kind ≠ .flag := by
  intro hk
  have hflag : p.isFlag := by simp [Param.isFlag, hk]
  exact a.not_breaks hc (.value hp (.flagChoices hflag (.inr (by simp [hfn]))))

namespace Completion

-- At most one function is called, for an option or a positional of the command at the cursor, and the
-- code of the script answers when it is asked for this function.
theorem calls_answered {text : String} {r : Report} (h : check text = .ok r) (ho : r.ok)
    (words : List String) (cursor : Int) (runner : Option HookRunner) (addHelp : Bool) :
    ∃ hooks, r.tree.hooks = .ok hooks ∧ hooks.Nodup ∧
      (∀ o, ∃ s, r.tree.script o = .ok s ∧ s.hooks = hooks ∧ r.tree.generate o = .ok s.written) ∧
      let calls := (complete r.tree words cursor runner addHelp).calls
      calls.length ≤ 1 ∧ ∀ call ∈ calls, call.fn ∈ hooks ∧ Script.answers hooks call.fn ∧
        ∃ s, replay r.tree (joinEquals words cursor).before = .ok s ∧
          ∃ p ∈ s.command.params, p.kind ≠ .flag ∧ nonempty? p.choicesFn = some call.fn := by
  have ⟨problems, fs, a⟩ := accepted_of_check h ho
  have ⟨hooks, hhooks, hnodup, hmem⟩ := r.tree.hooks_eq_ok a.sound.joined
  refine ⟨hooks, hhooks, hnodup, fun o => ?_, ?_⟩
  case refine_1 =>
    have ⟨s, hs, hg⟩ := a.generate_eq_ok o
    exact ⟨s, hs, Except.ok.inj ((Tree.hooks_of_script hs).symm.trans hhooks), hg⟩
  case refine_2 =>
    intro calls
    cases calls_complete r.tree words cursor runner addHelp
    case inl hc => simp [calls, hc]
    case inr hc =>
      have ⟨p, call, hconsulted, hc⟩ := hc
      have ⟨s, hs, hsought⟩ := hconsulted.sought
      have hp := hsought.mem_params (coherent_replay hs)
      have ⟨s', way, hs', hway, _⟩ := replay_eq_ok a.sound (joinEquals words cursor).before
      cases hs.symm.trans hs'
      have hfns : call.fn ∈ hooks :=
        (hmem call.fn).mpr ⟨s.command, hway.mem_nodes, p, hp, hconsulted.fn⟩
      have hcall : calls = [call] := hc
      rw [hcall]
      refine ⟨Nat.le_refl 1, fun call hm => ?_⟩
      cases List.mem_singleton.mp hm
      exact ⟨hfns, Script.answers_iff.mpr hfns, s, hs, p, hp,
        a.kind_ne_flag hway.mem_nodes hp hconsulted.fn, hconsulted.fn⟩

theorem calls_answered_option :
    let text := "# @cmd Deploy\n# @option --env[\x60envs\x60]\ndeploy() \x7b :; \x7d\n"
    let words := ["script", "deploy", "--env", ""]
    let run : HookRunner := fun _ _ => .lines ["dev"]
    ∃ r hooks, check text = .ok r ∧ r.ok ∧ r.tree.hooks = .ok hooks ∧
      (complete r.tree words 3 (some run) true).calls = [⟨"envs", ["deploy", "--env", ""]⟩] ∧
      "envs" ∈ hooks ∧ Script.answers hooks "envs" := by
  intro text words run
  let env : Param :=
    { name := "env", kind := .option, long := some "--env", choicesFn := some "envs", line := 2 }
  let root : Command := { index := 0, children := [("deploy", 1)] }
  let deploy : Command := {
    index := 1
    name := "deploy"
    help := "Deploy"
    params := [env]
    parent := some 0
    func := some "deploy"
    line := 1
  }
  let r : Report := { tree := ⟨[root, deploy]⟩, diagnostics := [], directives := 3 }
  have h : check text = .ok r := by decide +kernel
  have hcalls : (complete r.tree words 3 (some run) true).calls = [⟨"envs", ["deploy", "--env", ""]⟩] := by
    decide +kernel
  have ⟨hooks, hhooks, _, _, _, hall⟩ := calls_answered h rfl words 3 (some run) true
  have ⟨hm, ha, _⟩ := hall ⟨"envs", ["deploy", "--env", ""]⟩ (hcalls ▸ List.mem_singleton.mpr rfl)
  exact ⟨r, hooks, h, rfl, hhooks, hcalls, hm, ha⟩

end Completion

end ShellArgs
