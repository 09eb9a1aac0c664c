import ShellArgs.Proofs.Routine.Document
import ShellArgs.Proofs.Routine.Inert
import ShellArgs.Proofs.Tree.Visits
import ShellArgs.Script

namespace ShellArgs

open Outcome Shell Text

namespace Tree.Flat

variable {t : Tree} {c : Command} {ns : List String} {children : List Command}

theorem path_go {n : Nat} {seen : List Int} {names : List String} (h : t.Flat) (hc : c.Flat)
    (hn : ∀ s ∈ names, OneLine s) (hp : path.go t n seen c names = .ok ns) :
    ∀ s ∈ ns, OneLine s := by
  induction n generalizing seen c names
  case zero => cases hp; exact hn
  case succ n hi =>
    unfold path.go at hp
    split at hp
    case h_1 => cases hp; exact hn
    case h_2 i _ =>
      split at hp
      case isTrue => cases hp; exact hn
      case isFalse =>
        obtain ⟨parent, hparent, hp⟩ := bind_eq_ok_iff.mp hp
        exact hi (h parent (mem_nodes_of_node hparent)) (List.forall_mem_cons.mpr ⟨hc.name, hn⟩) hp

theorem callPath {o : Options} {words : String} (h : t.Flat) (hc : c.Flat) (ho : OneLine o.prog)
    (hp : Routine.callPath t c o = .ok words) : OneLine words := by
  obtain ⟨ns, hns, hp⟩ := bind_eq_ok_iff.mp hp
  cases hp
  have hnames := h.path_go hc (by simp) hns
  exact oneLine_intercalate (by decide) (List.forall_mem_cons.mpr ⟨ho, hnames⟩)

theorem childrenOf (h : t.Flat) (hc : t.childrenOf c = .ok children) : ∀ d ∈ children, d.Flat := by
  intro d hd
  obtain ⟨_, _, hd⟩ := exists_of_mem_mapM hc hd
  exact h d (mem_nodes_of_node hd)

end Tree.Flat

namespace Routine

variable {main : Prop} {t : Tree} {c : Command} {o : Options} {f : FunctionDef}

theorem silent_parseRoutine (ht : t.Flat) (hc : c.Flat) (hs : isName o.stem.toList)
    (ho : OneLine o.prog) (h : parseRoutine t c o = .ok f) : Silent main f.written := by
  obtain ⟨children, hchildren, h⟩ := bind_eq_ok_iff.mp h
  obtain ⟨words, hwords, h⟩ := bind_eq_ok_iff.mp h
  cases h
  have hbody := inert_parseBody hc (ht.childrenOf hchildren) hs ho (ht.callPath hc ho hwords)
  exact silent_function ((Lead.of_apart (by decide)).append oneLine_intRepr)
    (head?_ofList_append (by decide) _) hbody.silent

theorem lead_delimiter (n : Nat) :
    Lead (delimiter n) ∧ (delimiter n).toList.head? ≠ some '#' := by
  cases n
  case zero => exact ⟨.of_apart (by decide), by decide⟩
  case succ n =>
    refine ⟨((Lead.of_apart (by decide)).append oneLine_natRepr).append (by decide), ?_⟩
    have hwritten : delimiter (n + 1) = "__ARGSH_USAGE_" ++ (toString (n + 1) ++ "__") :=
      String.append_assoc
    exact hwritten ▸ head?_ofList_append (by decide) _

-- The usage text stands between lines that say nothing.
theorem silent_usageRoutine (hu : ∀ usage, usageText t c o = .ok usage → Silent main usage)
    (h : usageRoutine t c o = .ok f) : Silent main f.written := by
  obtain ⟨usage, husage, h⟩ := bind_eq_ok_iff.mp h
  cases h
  obtain ⟨n, hn, _⟩ := exists_searched usage
  have hdelimiter := lead_delimiter n
  have hcat : (line ("cat <<'" ++ delimiter n ++ "'")).Inert :=
    inert_line (((Lead.of_apart (by decide)).append hdelimiter.1.oneLine).append (by decide))
  refine silent_function ((Lead.of_apart (by decide)).append oneLine_intRepr)
    (head?_ofList_append (by decide) _) ?_
  simp only [hn, List.forall_mem_cons]
  refine ⟨?_, hu usage husage, hdelimiter.1.silent hdelimiter.2, by simp⟩
  have hwritten : "    cat <<'" ++ delimiter n ++ "'" =
      "    " ++ ("cat <<'" ++ delimiter n ++ "'") := by
    rw [← String.append_assoc, ← String.append_assoc]
    rfl
  rw [hwritten]
  exact hcat.silent_append (by simp) (by decide)

end Routine

namespace Script

variable {main : Prop} {hooks : List String}

-- What no lexer takes for a directive or for a main function.
def Unread (u : List Char) : Prop :=
  Flat u ∧ (Directive.marked? u).isSome = false ∧ Directive.function? u ≠ some "main".toList

instance {u : List Char} : Decidable (Unread u) :=
  inferInstanceAs (Decidable (_ ∧ _ ∧ _))

theorem Unread.silent {u : List Char} (h : Unread u) : Silent main (String.ofList u) := by
  refine silent_of_oneLine (oneLine_ofList.mpr h.1) (fun hm => ?_) fun hd => ?_
  · rw [String.toList_ofList, ← Directive.isSome_marked?_iff, h.2.1] at hm
    cases hm
  · rw [String.toList_ofList (l := u)] at hd
    exact absurd (Directive.function?_eq_some_iff.mpr hd) h.2.2

theorem silent_header {prog : String} (h : OneLine prog) :
    ∀ s ∈ header prog, Silent main s := by
  have hlead : Lead ("# Generated by argsh " ++ version ++ " for " ++ prog ++
      ". Do not edit by hand;") :=
    ((((Lead.of_apart (by decide)).append (by decide)).append (by decide)).append h).append
      (by decide)
  have hunmarked : ¬ Directive.IsMarked ("# Generated by argsh " ++ version ++ " for " ++ prog ++
      ". Do not edit by hand;").toList := by
    rw [← Directive.marked?_eq_none_iff]
    simp only [String.toList_append]
    rfl
  refine List.forall_mem_cons.mpr
    ⟨?_, List.forall_mem_cons.mpr ⟨?_, List.forall_mem_singleton.mpr ?_⟩⟩
  case refine_1 =>
    exact silent_of_oneLine hlead.oneLine hunmarked fun hd => absurd hd hlead.not_defines
  case refine_2 => exact Unread.silent (by decide)
  case refine_3 => exact Unread.silent (by decide)

theorem silent_preamble : ∀ s ∈ Routine.preamble, Silent main s := by
  unfold Routine.preamble
  repeat refine List.forall_mem_cons.mpr ⟨Unread.silent (by decide), ?_⟩
  exact List.forall_mem_nil _

theorem inert_hookDispatch (h : ∀ f ∈ hooks, OneLine f) : Inert (hookDispatch hooks) := by
  unfold hookDispatch
  split
  case isTrue => exact inert_nil
  case isFalse =>
    have hcase := inert_case (doubleQuoted "$ARGSH_HOOK") (by decide)
    have harm : (line ("|".intercalate (hooks.map quote) ++ ")")).Inert := by
      have hexactly : hooks.map quote = (hooks.map Pattern.exactly).map Pattern.written := by
        simp [Pattern.written, Pattern.exactly, Glob.written, String.join]
      rw [hexactly]
      exact inert_line ((Stops.alternatives _).lead (oneLine_alternatives (oneLine_map_exactly h)))
    have hrun : (line (doubleQuoted "$ARGSH_HOOK" ++ " " ++ doubleQuoted "$@")).Inert :=
      inert_line (((Lead.doubleQuoted (by decide)).append (by decide)).append (by decide))
    have hexit : (line "exit").Inert := inert_line (.of_apart (by decide))
    have hesac : (line "esac").Inert := inert_line (.of_apart (by decide))
    have hdie : (line "_argsh_die \"unknown completion hook '$ARGSH_HOOK'\"").Inert :=
      inert_line (.of_apart (by decide))
    exact inert_conditional (by decide) (by simpa using ⟨hcase, harm, ⟨hrun, hexit⟩, hesac, hdie⟩)

theorem silent_mainRoutine (h : ∀ f ∈ hooks, OneLine f) :
    Silent main (mainRoutine hooks).written := by
  have hparse : (line (Routine.parseName 0 ++ " " ++ doubleQuoted "$@")).Inert :=
    inert_line ((((Lead.of_apart (by decide)).append oneLine_intRepr).append (by decide)).append
      (by decide))
  have hbody : Inert (hookDispatch hooks ++
      [line (Routine.parseName 0 ++ " " ++ doubleQuoted "$@")]) := by
    simpa using ⟨inert_hookDispatch h, hparse⟩
  have hname : Lead "_argsh_main" := .of_apart (by decide)
  have hhead : "_argsh_main".toList.head? ≠ some '#' := by decide
  exact silent_function (f := mainRoutine hooks) hname hhead hbody.silent

theorem silent_written {s : Script} (hp : OneLine s.prog) (hh : ∀ f ∈ s.hooks, OneLine f)
    (hr : ∀ f ∈ s.routines, Silent main f.written) : Silent main s.written := by
  have hempty : Silent main "" := fun _ h => nomatch h
  have hcall : Silent main "_argsh_main \"$@\"" :=
    (Lead.of_apart (by decide)).silent (by decide)
  refine silent_intercalate ?_
  simp only [List.forall_mem_append, List.forall_mem_cons]
  refine ⟨⟨⟨silent_header hp, silent_preamble⟩, ?_⟩, hempty, silent_mainRoutine hh, hempty, hcall,
    hempty, by simp⟩
  intro l hl
  obtain ⟨f, hf, hl⟩ := List.mem_flatMap.mp hl
  simp only [List.mem_cons, List.not_mem_nil, or_false] at hl
  rcases hl with rfl | rfl
  case inl => exact hempty
  case inr => exact hr f hf

end Script

namespace Tree

variable {main : Prop} {t : Tree} {o : Options} {s : Script}

theorem oneLine_hooks {hooks : List String} (ht : t.Flat) (h : t.hooks = .ok hooks) :
    ∀ f ∈ hooks, OneLine f := by
  obtain ⟨cs, hcs, h⟩ := bind_eq_ok_iff.mp h
  cases h
  obtain ⟨_, _, hv⟩ := visited_of_walk hcs
  intro f hf
  obtain ⟨c, hc, hf⟩ := List.mem_flatMap.mp (List.mem_eraseDups.mp hf)
  obtain ⟨p, hp, hf⟩ := List.mem_filterMap.mp hf
  exact ((ht c (hv.mem_nodes hc)).params p hp).choicesFn f (Option.filter_eq_some_iff.mp hf).1

theorem silent_script (ht : t.Flat) (hs : isName o.stem.toList) (ho : OneLine o.prog)
    (hu : ∀ c ∈ t.nodes, ∀ usage, Routine.usageText t c o = .ok usage → Silent main usage)
    (h : t.script o = .ok s) : Silent main s.written := by
  obtain ⟨cs, hcs, h⟩ := bind_eq_ok_iff.mp h
  obtain ⟨routines, hroutines, h⟩ := bind_eq_ok_iff.mp h
  obtain ⟨hooks, hhooks, h⟩ := bind_eq_ok_iff.mp h
  cases h
  obtain ⟨_, _, hv⟩ := visited_of_walk hcs
  refine Script.silent_written ho (oneLine_hooks ht hhooks) fun f hf => ?_
  obtain ⟨fs, hfs, hf⟩ := List.mem_flatten.mp hf
  obtain ⟨c, hc, hfs⟩ := exists_of_mem_mapM hroutines hfs
  have hc := hv.mem_nodes hc
  obtain ⟨g, hg, hfs⟩ := bind_eq_ok_iff.mp hfs
  obtain ⟨g', hg', hfs⟩ := bind_eq_ok_iff.mp hfs
  cases hfs
  simp only [List.mem_cons, List.not_mem_nil, or_false] at hf
  rcases hf with rfl | rfl
  case inl => exact Routine.silent_parseRoutine ht (ht c hc) hs ho hg
  case inr => exact Routine.silent_usageRoutine (hu c hc) hg'

end Tree

end ShellArgs
