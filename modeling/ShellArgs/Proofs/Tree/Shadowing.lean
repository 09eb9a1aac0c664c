import ShellArgs.Proofs.Check
import ShellArgs.Proofs.Shell.Flat

-- The shell variables of the parameters of a command and of all commands around it. Where
-- validation finds nothing, no two of them are the same, so that no routine takes a value that
-- an outer one has bound.

namespace ShellArgs

open Outcome

namespace Param

variable {p q : Param} {stem : String}

theorem varName_eq_iff : p.varName stem = q.varName stem ↔
    Shell.nearestName p.name = Shell.nearestName q.name := by
  rw [varName, varName, String.append_right_inj]

end Param

namespace Tree

-- The variables of a command and of all commands around it.
def variablesAround (t : Tree) (c : Command) (stem : String) : List String :=
  ((c :: t.enclosing c).flatMap (·.params)).map (·.varName stem)

variable {t : Tree} {c d r : Command} {cs : List Command}

namespace Way

-- The chain of parents leads back along the way. It comes by no place again, as commands stand
-- behind their parents.
theorem enclosing_go (s : t.Sound) (hr : t.root = .ok r) (w : t.Way cs c) (n : Nat)
    (seen : List Int) (hn : cs.length < n) (hs : ∀ i ∈ seen, c.index < i) :
    enclosing.go t n seen (some c.index) = (r :: cs).reverse := by
  have hstep {n : Nat} {seen : List Int} {d : Command} (hd : d ∈ t.nodes)
      (hs : ∀ i ∈ seen, d.index < i) : enclosing.go t (n + 1) seen (some d.index) =
        d :: enclosing.go t n (d.index :: seen) d.parent := by
    have hseen : d.index ∉ seen := fun h => Int.lt_irrefl _ (hs _ h)
    have hpos := s.joined.index_nonneg hd
    simp [enclosing.go, hseen, hpos, s.joined.getElem?_index hd]
  induction w generalizing n seen
  case root h =>
    cases hr.symm.trans h
    cases n
    case zero   => cases hn
    case succ n =>
      rw [hstep (mem_nodes_of_node h) hs, ((Way.root h).parent_eq_none_iff s.joined).mpr rfl]
      cases n <;> rfl
  case child cs c d w hb hi =>
    cases n
    case zero   => cases hn
    case succ n =>
      have hlt := s.index_lt hb
      have hseen : ∀ i ∈ d.index :: seen, c.index < i :=
        List.forall_mem_cons.mpr ⟨hlt, fun i hm => Int.lt_trans hlt (hs i hm)⟩
      rw [hstep hb.mem hs, hb.parent, hi n (d.index :: seen) (by simpa using hn) hseen]
      simp

theorem cons_enclosing (s : t.Sound) (hr : t.root = .ok r) (w : t.Way cs c) :
    c :: t.enclosing c = (r :: cs).reverse := by
  cases w
  case root h =>
    cases hr.symm.trans h
    rw [enclosing, ((Way.root h).parent_eq_none_iff s.joined).mpr rfl]
    rfl
  case child cs d w hb =>
    have := w.length_le s.joined
    rw [enclosing, hb.parent, w.enclosing_go s hr _ _ (by omega) (by simpa using s.index_lt hb)]
    simp

end Way

-- A command comes right before those around its parent.
theorem Sound.enclosing_eq (s : t.Sound) (w : t.Way cs c) (hb : t.Below c d) :
    t.enclosing d = c :: t.enclosing c := by
  have ⟨r, hr, _⟩ := s.joined.root_eq_ok
  have := (Way.child w hb).cons_enclosing s hr
  rw [← List.cons_append, List.reverse_append, ← w.cons_enclosing s hr] at this
  exact (List.cons.inj this).2

theorem Sound.mem_enclosing_iff (s : t.Sound) (h : c ∈ t.nodes) :
    d ∈ c :: t.enclosing c ↔ t.Above c d := by
  constructor
  case mp =>
    intro hd
    cases List.mem_cons.mp hd
    case inl hd => exact hd ▸ .self
    case inr hd => exact above_of_mem_enclosing hd
  case mpr =>
    have ⟨cs, w⟩ := s.exists_way h
    have hparent : ∀ d ∈ c :: t.enclosing c, ∀ p e, d.parent = some p → t.node p = .ok e →
        e ∈ c :: t.enclosing c := by
      clear h
      induction w
      case root h =>
        have hp := ((Way.root h).parent_eq_none_iff s.joined).mpr rfl
        simp [enclosing, hp, enclosing.go]
      case child cs c d w hb hi =>
        rw [s.enclosing_eq w hb]
        intro d' hd p e hp he
        cases List.mem_cons.mp hd
        case inr hd => exact List.mem_cons_of_mem _ (hi d' hd p e hp he)
        case inl hd =>
          subst hd
          cases hb.parent.symm.trans hp
          cases (s.joined.node_index w.mem_nodes).symm.trans he
          exact List.mem_cons_of_mem _ List.mem_cons_self
    intro ha
    induction ha
    case self             => exact List.mem_cons_self
    case parent hp he hi => exact hparent _ hi _ _ hp he

-- Without a finding, no command around another one has a variable of its parameters.
theorem not_shadowed (h : t.shadowFindings c = .ok []) {a : Command} {p q : Param}
    (ha : a ∈ t.enclosing c) (hq : q ∈ a.params) (hp : p ∈ c.params) :
    Shell.nearestName q.name ≠ Shell.nearestName p.name := by
  intro he
  obtain ⟨fss, hfss, h⟩ := bind_eq_ok_iff.mp h
  obtain ⟨fs, hm, hfs⟩ := exists_of_mapM_eq_ok hfss hp
  have hnil : fs = [] := List.flatten_eq_nil_iff.mp (Except.ok.inj h) fs hm
  subst hnil
  split at hfs
  case h_1 hnone =>
    have hmem : (q, a) ∈ (t.enclosing c).flatMap fun a => a.params.map fun q => (q, a) :=
      List.mem_flatMap.mpr ⟨a, ha, List.mem_map_of_mem hq⟩
    simpa [he] using List.find?_eq_none.mp hnone _ hmem
  case h_2 =>
    obtain ⟨_, _, hfs⟩ := bind_eq_ok_iff.mp hfs
    obtain ⟨_, _, hfs⟩ := bind_eq_ok_iff.mp hfs
    cases hfs

theorem Sound.shadowFindings_eq_nil (s : t.Sound) (hf : t.findings = .ok []) (h : c ∈ t.nodes) :
    t.shadowFindings c = .ok [] := by
  obtain ⟨owner, ho⟩ := s.joined.label_eq_ok h
  obtain ⟨shadows, hs, _⟩ := s.joined.shadowFindings_eq_ok h
  obtain ⟨children, hch, _⟩ := s.joined.childFindings_eq_ok s.unambiguous h
  have hall : t.commandFindings c = .ok (paramFindings owner [] c.params ++
      orderFindings owner none none c.positionals ++ shadows ++ children) := by
    simp [commandFindings, ho, hs, hch]
  obtain ⟨fs, hfs, hm⟩ := s.joined.findings_eq_ok s.unambiguous
  cases hf.symm.trans hfs
  rw [hs]
  refine congrArg _ (List.eq_nil_iff_forall_not_mem.mpr fun f hf => ?_)
  have := (hm f).mpr ⟨c, h, _, hall, List.mem_append_left _ (List.mem_append_right _ hf)⟩
  cases this

-- No two parameters on the way to a command share a variable.
theorem Way.nodup_variables (s : t.Sound) (w : t.Way cs c) (stem : String)
    (ho : ∀ d ∈ t.nodes, (d.params.map (·.varName stem)).Nodup)
    (hn : ∀ d ∈ t.nodes, t.shadowFindings d = .ok []) :
    (t.variablesAround c stem).Nodup := by
  induction w
  case root h =>
    have hp := ((Way.root h).parent_eq_none_iff s.joined).mpr rfl
    simpa [variablesAround, enclosing, hp, enclosing.go] using ho _ (mem_nodes_of_node h)
  case child cs c d w hb hi =>
    rw [variablesAround, List.flatMap_cons, List.map_append, s.enclosing_eq w hb]
    refine List.nodup_append.mpr ⟨ho d hb.mem, hi, ?_⟩
    rintro v hv _ hu rfl
    obtain ⟨p, hp, rfl⟩ := List.mem_map.mp hv
    obtain ⟨q, hq, he⟩ := List.mem_map.mp hu
    obtain ⟨a, ha, hq⟩ := List.mem_flatMap.mp hq
    rw [← s.enclosing_eq w hb] at ha
    exact not_shadowed (hn d hb.mem) ha hq hp (Param.varName_eq_iff.mp he)

end Tree

variable {text stem : String} {r : Report}

theorem check_total (text : String) : ∃ r, check text = .ok r := by
  obtain ⟨_, _, _, _, _, _, hr⟩ := check_eq_ok text
  exact ⟨_, hr⟩

theorem nodup_variables_of_check (h : check text = .ok r) (ho : r.ok) {c : Command}
    (hc : c ∈ r.tree.nodes) : (c.params.map (·.varName stem)).Nodup := by
  have ⟨_, _, a⟩ := accepted_of_check h ho
  have ⟨hapart, _⟩ := Tree.not_breaks_iff.mp (a.not_breaks hc)
  refine List.pairwise_map.mpr (hapart.imp fun h he => ?_)
  exact h.names (Param.varName_eq_iff.mp he)

theorem findings_eq_nil_of_check (h : check text = .ok r) (hr : r.diagnostics = []) :
    r.tree.findings = .ok [] := by
  have ⟨t, problems, fs, _, _, hfs, hc⟩ := check_eq_ok text
  cases h.symm.trans hc
  have hall := (Diagnostic.sorted_perm _).symm.trans (.of_eq hr)
  have hfindings := (List.append_eq_nil_iff.mp hall.eq_nil).2
  have hnone := ((Diagnostic.sorted_perm _).symm.trans (.of_eq hfindings)).eq_nil
  rw [hfs, List.map_eq_nil_iff.mp hnone]

-- All parsed values have variables, which no other parameter of the same command has. If nothing
-- at all is reported, none of the commands above has it either.
theorem check_variables (text : String) (hs : Shell.isName stem.toList) : ∃ r, check text = .ok r ∧
    (∀ c ∈ r.tree.nodes, ∀ p ∈ c.params, Shell.isName (p.varName stem).toList) ∧
    (r.ok → ∀ c ∈ r.tree.nodes, (c.params.map (·.varName stem)).Nodup) ∧
    (r.diagnostics = [] → ∀ c ∈ r.tree.nodes,
      (∀ d, d ∈ c :: r.tree.enclosing c ↔ r.tree.Above c d) ∧
      (r.tree.variablesAround c stem).Nodup) := by
  obtain ⟨r, hr⟩ := check_total text
  have s := sound_of_check hr
  refine ⟨r, hr, fun _ _ p _ => p.isName_varName hs, fun ho c hc => nodup_variables_of_check hr ho hc,
    fun hnone c hc => ⟨fun d => s.mem_enclosing_iff hc, ?_⟩⟩
  have ho : r.ok := by simp [Report.ok, hnone, Diagnostic.anyError]
  obtain ⟨cs, w⟩ := s.exists_way hc
  exact w.nodup_variables s stem (fun d hd => nodup_variables_of_check hr ho hd) fun d hd =>
    s.shadowFindings_eq_nil (findings_eq_nil_of_check hr hnone) hd

-- A command with a variable of its own and one of the script around it.
theorem check_variables_deploy : Shell.isName "argsh".toList ∧ ∃ r,
    check "# @option --region\n# @cmd Deploy\n# @arg target!\ndeploy() \x7b :; \x7d\n" = .ok r ∧
      r.diagnostics = [] ∧ ∃ c ∈ r.tree.nodes,
        r.tree.variablesAround c "argsh" = ["argsh_target", "argsh_region"] ∧
          (r.tree.variablesAround c "argsh").Nodup := by
  have hs : Shell.isName "argsh".toList := by decide
  obtain ⟨r, hr, _, _, hnodup⟩ := check_variables
    "# @option --region\n# @cmd Deploy\n# @arg target!\ndeploy() \x7b :; \x7d\n" hs
  have he : (check
      "# @option --region\n# @cmd Deploy\n# @arg target!\ndeploy() \x7b :; \x7d\n").toOption.map
        (fun r => (r.diagnostics, r.tree.nodes.map (r.tree.variablesAround · "argsh"))) =
      some ([], [["argsh_region"], ["argsh_target", "argsh_region"]]) := by
    decide +kernel
  rw [hr] at he
  obtain ⟨hnone, hvars⟩ := Prod.mk.inj (Option.some.inj he)
  obtain ⟨c, hc, hv⟩ := List.mem_map.mp (hvars ▸ List.mem_cons_of_mem _ List.mem_cons_self)
  exact ⟨hs, r, hr, hnone, c, hc, hv, (hnodup hnone c hc).2⟩

end ShellArgs
