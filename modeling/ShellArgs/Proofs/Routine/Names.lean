import Mathlib
import ShellArgs.Directive.Lexer
import ShellArgs.Proofs.Tree.Preorder
import ShellArgs.Script
import ShellArgs.Text.Cut

namespace ShellArgs

open Outcome Shell

namespace Routine

variable {i j : Int}

theorem parseName_inj : parseName i = parseName j ↔ i = j := by
  rw [parseName_eq, parseName_eq, String.append_right_inj]
  exact Int.repr_inj

theorem usageName_inj : usageName i = usageName j ↔ i = j := by
  rw [usageName_eq, usageName_eq, String.append_right_inj]
  exact Int.repr_inj

theorem parseName_ne_usageName : parseName i ≠ usageName j := by
  intro h
  have := congrArg String.toList h
  simp [parseName_eq, usageName_eq] at this

-- Whether a function is called like the routine of a command.
def isRoutineName (s : String) : Bool :=
  Text.startsWith s "_argsh_parse_" || Text.startsWith s "_argsh_usage_"

theorem isRoutineName_parseName : isRoutineName (parseName i) := by
  simp [isRoutineName, parseName_eq, Text.startsWith_append]

theorem isRoutineName_usageName : isRoutineName (usageName i) := by
  simp [isRoutineName, usageName_eq, Text.startsWith_append]

-- The names of the routines of some commands.
def namesOf (cs : List Command) : List String :=
  cs.flatMap fun c => [parseName c.index, usageName c.index]

theorem nodup_namesOf {cs : List Command} (h : (cs.map (·.index)).Nodup) : (namesOf cs).Nodup := by
  rw [namesOf, List.nodup_flatMap]
  refine ⟨fun c _ => by simp [parseName_ne_usageName], ?_⟩
  refine (List.pairwise_map.mp h).imp fun hne => ?_
  simpa [Function.onFun, parseName_inj, usageName_inj, parseName_ne_usageName,
    parseName_ne_usageName.symm] using Ne.symm hne

end Routine

namespace Script

-- All functions that the code of a script defines, in their order.
def functions (s : Script) : List String :=
  (Routine.preamble.filterMap (Directive.function? ·.toList)).map String.ofList ++
    s.routines.map (·.name) ++ [(mainRoutine s.hooks).name]

theorem not_isRoutineName_of_defines {cs : List Char}
    (h : (Directive.function? cs).all fun f => !Routine.isRoutineName (String.ofList f)) :
    ∀ f ∈ Directive.function? (String.ofList cs).toList,
      ¬ Routine.isRoutineName (String.ofList f) := by
  rw [String.toList_ofList]
  intro f hf
  rw [Option.mem_def] at hf
  simpa [hf] using h

theorem not_isRoutineName_of_mem_preamble : ∀ l ∈ Routine.preamble,
    ∀ f ∈ Directive.function? l.toList, ¬ Routine.isRoutineName (String.ofList f) := by
  unfold Routine.preamble
  repeat refine List.forall_mem_cons.mpr ⟨not_isRoutineName_of_defines (by decide), ?_⟩
  exact List.forall_mem_nil _

theorem filter_functions (s : Script) (h : ∀ f ∈ s.routines, Routine.isRoutineName f.name) :
    s.functions.filter Routine.isRoutineName = s.routines.map (·.name) := by
  have hpreamble : ((Routine.preamble.filterMap (Directive.function? ·.toList)).map
      String.ofList).filter Routine.isRoutineName = [] := by
    refine List.filter_eq_nil_iff.mpr fun _ hm => ?_
    obtain ⟨f, hf, rfl⟩ := List.mem_map.mp hm
    obtain ⟨l, hl, hf⟩ := List.mem_filterMap.mp hf
    exact not_isRoutineName_of_mem_preamble l hl f hf
  have hmain : [(mainRoutine s.hooks).name].filter Routine.isRoutineName = [] := by
    simp only [mainRoutine]
    decide
  rw [functions, List.filter_append, List.filter_append, hpreamble, hmain, List.nil_append,
    List.append_nil, List.filter_eq_self]
  exact List.forall_mem_map.mpr h

end Script

namespace Routine

variable {t : Tree} {c : Command} {o : Options} {f : FunctionDef}

theorem eq_of_parseRoutine (h : parseRoutine t c o = .ok f) :
    ∃ children path, t.childrenOf c = .ok children ∧
      f = ⟨parseName c.index, written (indent (parseBody c children o path))⟩ := by
  obtain ⟨children, hc, h⟩ := bind_eq_ok_iff.mp h
  obtain ⟨path, _, h⟩ := bind_eq_ok_iff.mp h
  cases h
  exact ⟨children, path, hc, rfl⟩

theorem name_of_usageRoutine (h : usageRoutine t c o = .ok f) : f.name = usageName c.index := by
  obtain ⟨_, _, h⟩ := bind_eq_ok_iff.mp h
  cases h
  rfl

end Routine

namespace Tree

variable {t : Tree} {c : Command} {o : Options} {s : Script} {order : List Command}

-- The routines of a script, command by command.
theorem exists_routines (h : t.script o = .ok s) (hw : t.walk = .ok order) :
    ∃ fss, order.mapM (fun c => do
        return [← Routine.parseRoutine t c o, ← Routine.usageRoutine t c o]) = Except.ok fss ∧
      s.routines = fss.flatten := by
  obtain ⟨cs, hcs, h⟩ := bind_eq_ok_iff.mp h
  cases hw.symm.trans hcs
  obtain ⟨fss, hfss, h⟩ := bind_eq_ok_iff.mp h
  obtain ⟨hooks, _, h⟩ := bind_eq_ok_iff.mp h
  cases h
  exact ⟨fss, hfss, rfl⟩

theorem map_name_routines (h : t.script o = .ok s) (hw : t.walk = .ok order) :
    s.routines.map (·.name) = Routine.namesOf order := by
  obtain ⟨fss, hfss, hs⟩ := exists_routines h hw
  rw [hs]
  clear h hw hs
  induction order generalizing fss
  case nil =>
    cases hfss
    rfl
  case cons c order hi =>
    rw [List.mapM_cons] at hfss
    obtain ⟨fs, hfs, hfss⟩ := bind_eq_ok_iff.mp hfss
    obtain ⟨fss', hfss', h⟩ := bind_eq_ok_iff.mp hfss
    cases h
    obtain ⟨f, hf, hfs⟩ := bind_eq_ok_iff.mp hfs
    obtain ⟨g, hg, hfs⟩ := bind_eq_ok_iff.mp hfs
    cases hfs
    obtain ⟨_, _, _, rfl⟩ := Routine.eq_of_parseRoutine hf
    simp [Routine.namesOf, Routine.name_of_usageRoutine hg, hi _ hfss']

theorem filter_functions (h : t.script o = .ok s) (hw : t.walk = .ok order) :
    s.functions.filter Routine.isRoutineName = Routine.namesOf order := by
  have hnames := map_name_routines h hw
  rw [Script.filter_functions s fun f hf => ?_, hnames]
  have hm : f.name ∈ Routine.namesOf order := hnames ▸ List.mem_map_of_mem hf
  obtain ⟨c, _, hm⟩ := List.mem_flatMap.mp hm
  simp only [List.mem_cons, List.not_mem_nil, or_false] at hm
  rcases hm with hm | hm
  case inl => exact hm ▸ Routine.isRoutineName_parseName
  case inr => exact hm ▸ Routine.isRoutineName_usageName

theorem mem_routines (h : t.script o = .ok s) (hw : t.walk = .ok order) (hc : c ∈ order) :
    ∃ f ∈ s.routines, Routine.parseRoutine t c o = .ok f := by
  obtain ⟨fss, hfss, hs⟩ := exists_routines h hw
  obtain ⟨fs, hm, hfs⟩ := exists_of_mapM_eq_ok hfss hc
  obtain ⟨f, hf, hfs⟩ := bind_eq_ok_iff.mp hfs
  obtain ⟨g, _, hfs⟩ := bind_eq_ok_iff.mp hfs
  cases hfs
  exact ⟨f, hs ▸ List.mem_flatten.mpr ⟨_, hm, List.mem_cons_self⟩, hf⟩

end Tree

end ShellArgs
