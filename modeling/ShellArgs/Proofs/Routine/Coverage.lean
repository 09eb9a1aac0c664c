import ShellArgs.Proofs.Builder.Flat
import ShellArgs.Proofs.Generation
import ShellArgs.Proofs.Routine.Diversion
import ShellArgs.Proofs.Tree.Preorder

-- The code of a script covers its tree: the routines are those of the commands, in the order of
-- a walk, and they call each other as parents call their children.

namespace ShellArgs

open Outcome Shell

namespace Routine

variable {c d : Command} {children : List Command} {o : Options}

-- The arms for the words that call children are part of the loop.
theorem childArm_infix_parseBody (hd : d ∈ children) (path : String) :
    indent (indent (indent (childArm d))) <:+: parseBody c children o path := by
  have hne : children.isEmpty = false := by
    cases children
    case nil  => cases hd
    case cons => rfl
  have hcall : indent (childArm d) <:+: callChild children := by
    rw [callChild, hne, if_neg Bool.false_ne_true]
    have hcase : childArm d <:+: [line ("case " ++ doubleQuoted "$1" ++ " in")] ++
        children.flatMap childArm ++ [line "esac"] :=
      (infix_of_mem hd).trans ⟨_, _, rfl⟩
    exact (List.IsInfix.map _ hcase).trans ⟨_, _, rfl⟩
  let last : Arm := ⟨[⟨[.rest]⟩], .takeWord children⟩
  have hlast : last ∈ arms c children o := by simp [arms, last]
  have hlines : indent (indent (childArm d)) <:+: last.lines o.stem := by
    have hlines : indent (childArm d) <:+: last.action.lines o.stem ++ [armEnd] :=
      (hcall.trans (List.prefix_append _ _).isInfix).trans (List.prefix_append _ _).isInfix
    exact (List.IsInfix.map _ hlines).trans (List.suffix_cons _ _).isInfix
  have hloop : indent (indent (indent (childArm d))) <:+: wordLoop c children o := by
    have hcase : indent (indent (childArm d)) <:+: [line ("case " ++ doubleQuoted "$1" ++ " in")] ++
        (arms c children o).flatMap (·.lines o.stem) ++ [line "esac"] :=
      (hlines.trans (infix_of_mem (f := (·.lines o.stem)) hlast)).trans ⟨_, _, rfl⟩
    exact (List.IsInfix.map _ hcase).trans ⟨_, _, rfl⟩
  rw [parseBody_eq]
  exact hloop.trans ⟨_, _, rfl⟩

end Routine

variable {text : String} {r : Report} {o : Options}

-- Each command has one routine that parses its words and one that tells its usage, and there is
-- no other function with such a name. A routine calls those of the children and no others, except
-- for a parameter that is called like the variable for the next routine and for functions that
-- are called like an assignment to it.
theorem check_covered (hs : isName o.stem.toList) (h : check text = .ok r) (ho : r.ok) :
    ∃ order s, r.tree.walk = .ok order ∧ order.Perm r.tree.nodes ∧
      (∀ c ∈ r.tree.nodes, ∃ front below back children, order = front ++ c :: below ++ back ∧
        (∀ d, d ∈ c :: below ↔ d ∈ r.tree.nodes ∧ r.tree.Above d c) ∧
        r.tree.childrenOf c = .ok children ∧ children.Sublist below) ∧
      r.tree.script o = .ok s ∧ compile text o = .ok ⟨r, some s.written⟩ ∧
      s.functions.filter Routine.isRoutineName = Routine.namesOf order ∧
      (Routine.namesOf order).Nodup ∧
      ∀ c ∈ r.tree.nodes, ∃ children path, r.tree.childrenOf c = .ok children ∧
        ⟨Routine.parseName c.index,
          written (indent (Routine.parseBody c children o path))⟩ ∈ s.routines ∧
        (∀ d ∈ children, indent (indent (indent (Routine.childArm d))) <:+:
          Routine.parseBody c children o path) ∧
        (Routine.Dispatches children (Routine.parseBody c children o path) ↔
          ∀ k, ¬ Routine.Diverts c o.stem k) := by
  have ⟨problems, fs, a⟩ := accepted_of_check h ho
  have ⟨order, hw, hp, hblocks⟩ := a.sound.walk_eq_ok
  have ⟨s, hscript⟩ := Tree.script_eq_ok a.sound.joined o
  refine ⟨order, s, hw, hp, hblocks, hscript, ?_, Tree.filter_functions hscript hw, ?_,
    fun c hc => ?_⟩
  case refine_1 =>
    rw [compile, h]
    exact Report.compile_eq_written h ho hscript
  case refine_2 =>
    have hnodes : (r.tree.nodes.map (·.index)).Nodup :=
      a.sound.joined.nodup.map_on fun c hc d hd => a.sound.joined.eq_of_index_eq hc hd
    exact Routine.nodup_namesOf ((hp.map _).nodup_iff.mpr hnodes)
  case refine_3 =>
    have hchildren := a.sound.joined.childrenOf_eq_ok hc
    obtain ⟨f, hf, hroutine⟩ := Tree.mem_routines hscript hw (hp.mem_iff.mpr hc)
    obtain ⟨_, path, hds, rfl⟩ := Routine.eq_of_parseRoutine hroutine
    cases hchildren.symm.trans hds
    exact ⟨_, path, hchildren, hf, fun d hd => Routine.childArm_infix_parseBody hd path,
      Routine.dispatches_parseBody_iff hs (flat_of_check h c hc)⟩

-- An accepted script whose routine chooses another one that there is not, by a default.
theorem check_covered_next : isName "_argsh".toList ∧ ∃ r,
    check "# @option --next=_argsh_parse_7\n# @cmd Start\nstart() \x7b :; \x7d\n" = .ok r ∧ r.ok ∧
      ∃ s, r.tree.script { stem := "_argsh" } = .ok s ∧ ∃ c ∈ r.tree.nodes, ∃ children path,
        ⟨Routine.parseName c.index, written (indent
          (Routine.parseBody c children { stem := "_argsh" } path))⟩ ∈ s.routines ∧
        ¬ Routine.Dispatches children
          (Routine.parseBody c children { stem := "_argsh" } path) := by
  have hs : isName ({ stem := "_argsh" } : Options).stem.toList := by decide
  have he : (check
      "# @option --next=_argsh_parse_7\n# @cmd Start\nstart() \x7b :; \x7d\n").toOption.any
        (fun r => r.ok && r.tree.nodes.any fun c => c.params.any fun p =>
          p.name = "next" ∧ p.isArray = false ∧ nonempty? p.defaultFn = none ∧
            p.default = some (Routine.parseName 7)) := by
    decide +kernel
  obtain ⟨r, hr, he⟩ := (Option.any_eq_true _ _).mp he
  obtain ⟨ho, he⟩ := Bool.and_eq_true_iff.mp he
  obtain ⟨c, hc, he⟩ := List.any_eq_true.mp he
  obtain ⟨p, hp, he⟩ := List.any_eq_true.mp he
  have hr := Outcome.eq_ok_of_toOption hr
  have ⟨_, s, _, _, _, hscript, _, _, _, hroutines⟩ := check_covered hs hr ho
  have ⟨children, path, _, hroutine, _, hiff⟩ := hroutines c hc
  exact ⟨hs, r, hr, ho, s, hscript, c, hc, children, path, hroutine,
    fun hd => hiff.mp hd 7 (.inl ⟨rfl, p, hp, of_decide_eq_true he⟩)⟩

end ShellArgs
