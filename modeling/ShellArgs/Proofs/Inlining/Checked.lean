import ShellArgs.Proofs.Builder.Unlined
import ShellArgs.Proofs.Check
import ShellArgs.Proofs.Inlining.Lines

namespace ShellArgs

open Outcome Directive

-- Whether the script itself has a function to run.
def Tree.HasMain (t : Tree) : Prop :=
  ∃ r, t.nodes[0]? = some r ∧ r.func ≠ none

-- The rules do not speak of lines.
theorem Param.misvalued_unlined {p : Param} : p.unlined.Misvalued ↔ p.Misvalued := by
  constructor
  · rintro (⟨hk, hd⟩ | ⟨hk, hc⟩ | ⟨hk, hr, hd⟩ | ⟨hk, hd, hc, hv⟩ | ⟨hk, hd, hh, hv⟩)
    · exact .flagDefault hk hd
    · exact .flagChoices hk hc
    · exact .requiredDefault hk hr hd
    · exact .defaultNoChoice hk hd hc hv
    · exact .defaultNoNumber hk hd hh hv
  · rintro (⟨hk, hd⟩ | ⟨hk, hc⟩ | ⟨hk, hr, hd⟩ | ⟨hk, hd, hc, hv⟩ | ⟨hk, hd, hh, hv⟩)
    · exact .flagDefault hk hd
    · exact .flagChoices hk hc
    · exact .requiredDefault hk hr hd
    · exact .defaultNoChoice hk hd hc hv
    · exact .defaultNoNumber hk hd hh hv

theorem Command.not_breaks_unlined {c : Command} : ¬ c.unlined.Breaks ↔ ¬ c.Breaks := by
  have hpos : c.unlined.positionals = c.positionals.map Param.unlined := by
    simp [positionals, List.filter_map, Function.comp_def]
  have hapart (p q : Param) : p.unlined.Apart q.unlined ↔ p.Apart q :=
    ⟨fun h => ⟨h.forms, h.names⟩, fun h => ⟨h.forms, h.names⟩⟩
  have hprecedes (p q : Param) : p.unlined.Precedes q.unlined ↔ p.Precedes q := Iff.rfl
  have hforms (p : Param) : p.unlined.forms = p.forms := rfl
  simp only [Tree.not_breaks_iff, hpos, params_unlined, List.pairwise_map, List.forall_mem_map,
    hapart, hprecedes, Param.misvalued_unlined, hforms]

namespace Builder

variable {b : Builder} {root : Command} {ds : List Directive}

-- Functions that come when no command is pending.
theorem foldlM_functions (hs : ∀ p, b.scope ≠ .command p) (hr : b.tree.root = .ok root)
    (hf : ∀ d ∈ ds, d.kind = .function ∧ (d.text = "main" → root.func ≠ none)) :
    ds.foldlM feed b = .ok b := by
  induction ds with
  | nil => rfl
  | cons d ds hi =>
    have ⟨hk, hm⟩ := hf d List.mem_cons_self
    have hfeed : b.feed d = .ok b := by
      have hn : ¬ (d.text = "main" ∧ root.func = none) := fun h => hm h.1 h.2
      rw [feed, hk]
      simp only [onFunction_of_scope hs, hr, ok_bind, if_neg hn]
    rw [List.foldlM_cons, hfeed]
    exact hi fun e he => hf e (List.mem_cons_of_mem d he)

end Builder

namespace Tree

variable {t : Tree} {problems : List Diagnostic} {ds fs : List Directive}

theorem hasMain_unlined : t.unlined.HasMain ↔ t.HasMain := by
  unfold HasMain unlined
  rw [List.getElem?_map]
  cases t.nodes[0]? <;> simp

-- Functions at the end of a script that is accepted are not part of it, unless the script itself
-- gets one.
theorem ofDirectives_append (h : ofDirectives ds = .ok (t, problems))
    (he : ∀ d ∈ problems, d.isError = false)
    (hf : ∀ d ∈ fs, d.kind = .function ∧ (d.text = "main" → t.HasMain)) :
    ofDirectives (ds ++ fs) = .ok (t, problems) := by
  have ⟨b, hb, s, _⟩ := Builder.foldlM_feed (fun _ _ => True) trivial (fun _ _ _ => trivial) ds
  have ⟨r, hroot, hr, _⟩ := s.joined.root_eq_ok
  have hfinish := Builder.finish_eq_ok s hr
  have hall : b.finish = .ok (t, problems) := by
    rw [ofDirectives, hb] at h
    exact h
  cases hfinish.symm.trans hall
  have hscope : ∀ p, b.scope ≠ .command p := by
    intro p hp
    have := he _ (List.mem_append_left _ (List.mem_append_right _ (by
      rw [Builder.endProblems, hp]
      exact List.mem_cons_self)))
    cases this
  have hmain : ∀ d ∈ fs, d.kind = .function ∧ (d.text = "main" → r.func ≠ none) := by
    refine fun d hd => ⟨(hf d hd).1, fun hm => ?_⟩
    obtain ⟨r', hr', hfunc⟩ := (hf d hd).2 hm
    simp only [modify, List.getElem?_modify, hr, if_true, Option.map_eq_map, Option.map_some,
      Option.some.injEq] at hr'
    subst hr'
    exact hfunc
  rw [ofDirectives, List.foldlM_append, hb, ok_bind, Builder.foldlM_functions hscope hroot hmain,
    ok_bind, hfinish]

end Tree

section

variable {text code : String} {t : Tree} {r : Report} {problems : List Diagnostic}

-- A report is without errors if no part of the work has found one.
theorem exists_report (h : Tree.ofDirectives (lex text).1 = .ok (t, problems)) :
    ∃ r, check text = .ok r ∧ r.tree = t ∧ (r.ok ↔ (∀ d ∈ (lex text).2, d.isError = false) ∧
      (∀ d ∈ problems, d.isError = false) ∧ ∀ c ∈ t.nodes, ¬ c.Breaks) := by
  have ⟨_, _, fs, ht, s, hfs, hr⟩ := check_eq_ok text
  cases h.symm.trans ht
  have j := s.joined
  have hwarn : (∀ f ∈ fs, f.violation.severity = .warning) ↔ ∀ c ∈ t.nodes, ¬ c.Breaks := by
    have ⟨gs, hgs, hm⟩ := j.findings_eq_ok s.unambiguous
    cases hfs.symm.trans hgs
    constructor
    · intro hw c hc
      have ⟨_, _, hf, _⟩ := j.commandFindings_eq_ok s.unambiguous hc
      apply (Tree.commandFindings_warn_iff j s.unambiguous hc hf).mp
      exact fun f h => hw f ((hm f).mpr ⟨c, hc, _, hf, h⟩)
    · intro hb f hf
      obtain ⟨c, hc, gs, hgs, hf⟩ := (hm f).mp hf
      exact (Tree.commandFindings_warn_iff j s.unambiguous hc hgs).mpr (hb c hc) f hf
  refine ⟨_, hr, rfl, ?_⟩
  rw [← hwarn, Report.ok, Bool.not_eq_true', ← Finding.anyError_eq_false_iff]
  simp only [Diagnostic.anyError, List.any_eq_false, Bool.not_eq_true,
    (Diagnostic.sorted_perm _).mem_iff, List.forall_mem_append, and_assoc]

-- What is wrong with directives, and which directives they are, up to lines.
theorem directives_inlined (code : String)
    (h : Separate (!Inlining.isEvalLine ·) (Text.lines text.toList)) :
    (lex (inlined text code)).1.map Directive.unlined = (lex text).1.map Directive.unlined ++
      (lex code).1.map Directive.unlined := by
  simp only [map_unlined_directives, trace_inlined code h, List.filterMap_append]

theorem diagnostics_inlined (code : String)
    (h : Separate (!Inlining.isEvalLine ·) (Text.lines text.toList)) :
    (lex (inlined text code)).2.map Diagnostic.unlined = (lex text).2.map Diagnostic.unlined ++
      (lex code).2.map Diagnostic.unlined := by
  simp only [map_unlined_diagnostics, trace_inlined code h, List.filterMap_append]

theorem of_mem_lex_of_unmarked (hu : ∀ l ∈ Text.lines code.toList, ¬ IsMarked l) :
    (lex code).2 = [] ∧ ∀ d ∈ (lex code).1, d.kind = .function ∧
      ∃ l ∈ Text.lines code.toList, Defines d.text.toList l := by
  have hfunction (e : Event) (he : e ∈ trace 0 (Text.lines code.toList)) :=
    mem_trace_of_unmarked hu he
  constructor
  case left =>
    refine List.eq_nil_iff_forall_not_mem.mpr fun d hd => ?_
    have hmem := List.mem_map_of_mem (f := Diagnostic.unlined) hd
    rw [map_unlined_diagnostics] at hmem
    obtain ⟨e, he, heq⟩ := List.mem_filterMap.mp hmem
    obtain ⟨_, _, _, _, rfl⟩ := hfunction e he
    cases heq
  case right =>
    intro d hd
    have hmem := List.mem_map_of_mem (f := Directive.unlined) hd
    rw [map_unlined_directives] at hmem
    obtain ⟨e, he, heq⟩ := List.mem_filterMap.mp hmem
    obtain ⟨name, l, hl, hdef, rfl⟩ := hfunction e he
    have hd : d.unlined = ⟨.function, String.ofList name, 0⟩ := (Option.some.inj heq).symm
    refine ⟨congrArg Directive.kind hd, l, hl, ?_⟩
    rwa [show d.text = String.ofList name from congrArg Directive.text hd, String.toList_ofList]

-- Two lists are the same up to lines if their elements are.
theorem exists_of_map_unlined_eq {ds es : List Diagnostic} {d : Diagnostic}
    (h : ds.map Diagnostic.unlined = es.map Diagnostic.unlined) (hd : d ∈ ds) :
    ∃ e ∈ es, e.isError = d.isError := by
  obtain ⟨e, he, hu⟩ := List.mem_map.mp (h ▸ List.mem_map_of_mem hd)
  exact ⟨e, he, show e.unlined.isError = d.unlined.isError by rw [hu]⟩

theorem check_inlined_of_lines (h : check text = .ok r) (ho : r.ok)
    (hs : Separate (!Inlining.isEvalLine ·) (Text.lines text.toList))
    (hu : ∀ l ∈ Text.lines code.toList, ¬ IsMarked l)
    (hm : ∀ l ∈ Text.lines code.toList, Defines "main".toList l → r.tree.HasMain) :
    ∃ r', check (inlined text code) = .ok r' ∧ r'.ok ∧ r'.tree.unlined = r.tree.unlined := by
  have ⟨problems, _, a⟩ := accepted_of_check h ho
  have ⟨hlexical, hfunctions⟩ := of_mem_lex_of_unmarked hu
  have ⟨t', problems', ht', _⟩ := Tree.ofDirectives_eq_ok (lex (inlined text code)).1
  have hbuilt : (t'.unlined, problems'.map Diagnostic.unlined) =
      (r.tree.unlined, problems.map Diagnostic.unlined) := by
    have hafter := Tree.ofDirectives_unlined (lex (inlined text code)).1
    have hbefore := Tree.ofDirectives_unlined (lex text).1
    rw [ht', directives_inlined code hs] at hafter
    rw [a.tree] at hbefore
    refine Except.ok.inj (hafter.symm.trans (Tree.ofDirectives_append hbefore ?_ ?_))
    case refine_1 =>
      intro e he
      obtain ⟨d, hd, rfl⟩ := List.mem_map.mp he
      exact a.structural d hd
    case refine_2 =>
      intro e he
      obtain ⟨d, hd, rfl⟩ := List.mem_map.mp he
      obtain ⟨hk, l, hl, hdef⟩ := hfunctions d hd
      refine ⟨hk, fun he => Tree.hasMain_unlined.mpr (hm l hl ?_)⟩
      rwa [← show d.text = "main" from he]
  obtain ⟨htree, hproblems⟩ := Prod.mk.inj hbuilt
  obtain ⟨r', hr', rfl, hok⟩ := exists_report ht'
  refine ⟨r', hr', hok.mpr ⟨fun d hd => ?_, fun d hd => ?_, fun c hc => ?_⟩, htree⟩
  case refine_1 =>
    have hdiagnostics := diagnostics_inlined code hs
    rw [hlexical, List.map_nil, List.append_nil] at hdiagnostics
    obtain ⟨e, he, heq⟩ := exists_of_map_unlined_eq hdiagnostics hd
    exact heq ▸ a.lexical e he
  case refine_2 =>
    obtain ⟨e, he, heq⟩ := exists_of_map_unlined_eq hproblems hd
    exact heq ▸ a.structural e he
  case refine_3 =>
    have hmem : c.unlined ∈ r.tree.unlined.nodes := htree ▸ List.mem_map_of_mem hc
    obtain ⟨c', hc', he⟩ := List.mem_map.mp hmem
    rw [← Command.not_breaks_unlined, ← he, Command.not_breaks_unlined]
    exact a.not_breaks hc'

end

end ShellArgs
