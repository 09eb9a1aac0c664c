import ShellArgs.Proofs.Tree.References
import ShellArgs.Proofs.Tree.Sound
import ShellArgs.Proofs.Tree.Walk

-- What is found in trees whose references fit and whose aliases are not ambiguous. Nothing is
-- wrong with their structure, and the only aliases that are reported are those that repeat the
-- name of their own command.

namespace ShellArgs

open Outcome

namespace Violation

-- References between commands that do not fit.
def isOfStructure : Violation → Bool
  | rootHasParent | brokenChain _ | strayChild _ => true
  | _ => false

def isOfAliases : Violation → Bool
  | ownAlias _ | siblingAlias .. | sharedAlias .. => true
  | _ => false

-- Everything that is wrong with a parameter or with the order of parameters.
def isOfParams (v : Violation) : Bool :=
  !v.isOfStructure && !v.isOfAliases

-- Warnings about a command and those around it.
def isMinor : Violation → Bool
  | shadowed .. | ownAlias _ => true
  | _ => false

theorem severity_of_isMinor {v : Violation} (h : v.isMinor) : v.severity = .warning := by
  cases v <;> first | rfl | cases h

theorem isOfParams_or_ownAlias_of_isMinor {v : Violation} (h : v.isMinor) :
    v.isOfParams ∨ ∃ w, v = .ownAlias w := by
  cases v <;> first | exact .inl rfl | exact .inr ⟨_, rfl⟩ | cases h

end Violation

theorem Finding.anyError_eq_false_iff {fs : List Finding} :
    Diagnostic.anyError (Diagnostic.sorted (fs.map Finding.diagnostic)) = false ↔
      ∀ f ∈ fs, f.violation.severity = .warning := by
  have hwarn : ∀ s : Severity, ¬ s = .error ↔ s = .warning := by
    intro s
    cases s <;> simp
  simp [Diagnostic.anyError, (Diagnostic.sorted_perm _).mem_iff, Diagnostic.isError,
    Finding.diagnostic, hwarn]

namespace Tree

variable {t : Tree} {c d : Command} {f : Finding} {owner : String}

section Params

variable {p : Param} {v : Violation} {earlier ps : List Param}

theorem of_mem_formViolations (h : v ∈ p.formViolations owner earlier) :
    v.isOfParams ∧ v.severity = .error := by
  suffices ∀ own fs, v ∈ Param.formViolations.go p owner earlier own fs →
      v.isOfParams ∧ v.severity = .error from this [] p.forms h
  intro own fs
  induction fs generalizing own
  case nil => simp [Param.formViolations.go]
  case cons f fs hi =>
    unfold Param.formViolations.go
    split
    case h_1 =>
      intro h
      cases List.mem_cons.mp h
      case inl h => exact h ▸ ⟨rfl, rfl⟩
      case inr h => exact hi own h
    case h_2 =>
      split
      case isFalse => exact hi _
      case isTrue =>
        intro h
        cases List.mem_cons.mp h
        case inl h => exact h ▸ ⟨rfl, rfl⟩
        case inr h => exact hi own h

theorem of_mem_nameViolations (h : v ∈ p.nameViolations owner earlier) :
    v.isOfParams ∧ v.severity = .error := by
  unfold Param.nameViolations at h
  split at h
  case isTrue => exact List.mem_singleton.mp h ▸ ⟨rfl, rfl⟩
  case isFalse =>
    simp only at h
    split at h
    case h_1 => exact List.mem_singleton.mp h ▸ ⟨rfl, rfl⟩
    case h_2 => cases h

-- A binding that is shared is only a warning.
theorem of_mem_envViolations (h : v ∈ p.envViolations owner earlier) :
    v.isOfParams ∧ v.severity = .warning := by
  unfold Param.envViolations at h
  split at h
  case h_1 => cases h
  case h_2 =>
    split at h
    case h_1 => exact List.mem_singleton.mp h ▸ ⟨rfl, rfl⟩
    case h_2 => cases h

theorem of_mem_valueViolations (h : v ∈ p.valueViolations owner) :
    v.isOfParams ∧ v.severity = .error := by
  have hite : ∀ {q : Prop} [Decidable q] {w : Violation}, w.isOfParams ∧ w.severity = .error →
      v ∈ (if q then [w] else []) → v.isOfParams ∧ v.severity = .error := by
    intro q _ w hw h
    split at h
    case isTrue  => exact List.mem_singleton.mp h ▸ hw
    case isFalse => cases h
  unfold Param.valueViolations at h
  split at h
  case isTrue => exact (List.mem_append.mp h).elim (hite ⟨rfl, rfl⟩) (hite ⟨rfl, rfl⟩)
  case isFalse =>
    cases List.mem_append.mp h
    case inl h => exact hite ⟨rfl, rfl⟩ h
    case inr h =>
      split at h
      case h_1 => cases h
      case h_2 => exact (List.mem_append.mp h).elim (hite ⟨rfl, rfl⟩) (hite ⟨rfl, rfl⟩)

theorem isOfParams_paramFindings (h : f ∈ paramFindings owner earlier ps) :
    f.violation.isOfParams := by
  induction ps generalizing earlier
  case nil => cases h
  case cons p ps hi =>
    cases List.mem_append.mp h
    case inr h => exact hi h
    case inl h =>
      have ⟨v, hv, hf⟩ := List.mem_map.mp h
      subst hf
      simp only [List.mem_append, or_assoc] at hv
      obtain hv | hv | hv | hv := hv
      · exact (of_mem_formViolations hv).1
      · exact (of_mem_nameViolations hv).1
      · exact (of_mem_envViolations hv).1
      · exact (of_mem_valueViolations hv).1

theorem of_mem_orderFindings {variadic optional : Option Param}
    (h : f ∈ orderFindings owner variadic optional ps) :
    f.violation.isOfParams ∧ f.violation.severity = .error := by
  induction ps generalizing variadic optional
  case nil => cases h
  case cons p ps hi =>
    simp only [orderFindings, List.mem_append, or_assoc] at h
    obtain h | h | h := h
    · split at h
      case h_1 => split at h <;> exact List.mem_singleton.mp h ▸ ⟨rfl, rfl⟩
      case h_2 => cases h
    · split at h
      case h_1 =>
        split at h
        case isTrue  => exact List.mem_singleton.mp h ▸ ⟨rfl, rfl⟩
        case isFalse => cases h
      case h_2 => cases h
    · exact hi h

end Params

-- That a variable is taken from an outer command is only a warning.
theorem shadowFindings_ok (h : ∀ {d}, t.Above c d → ∃ l, t.label d = .ok l) :
    ∃ fs, t.shadowFindings c = .ok fs ∧ ∀ f ∈ fs, f.violation.isMinor := by
  let outer := (t.enclosing c).flatMap fun a => a.params.map fun q => (q, a)
  have houter : ∀ q a, (q, a) ∈ outer → t.Above c a := by
    intro q a hm
    simp only [outer, List.mem_flatMap, List.mem_map, Prod.mk.injEq] at hm
    have ⟨_, he, _, _, _, ha⟩ := hm
    exact above_of_mem_enclosing (ha ▸ he)
  refine bind_ok (fun fss => ∀ fs ∈ fss, ∀ f ∈ fs, f.violation.isMinor) (mapM_ok _ fun p _ => ?_) ?_
  case refine_1 =>
    cases hf : outer.find? fun (q, _) => Shell.nearestName q.name == Shell.nearestName p.name
    case none => exact ⟨[], rfl, by simp⟩
    case some e =>
      have ⟨l, hl⟩ := h .self
      have ⟨l', hl'⟩ := h (houter e.1 e.2 (List.mem_of_find?_eq_some hf))
      refine ⟨_, by simp only [hl, hl', ok_bind]; rfl, ?_⟩
      intro f hf
      exact List.mem_singleton.mp hf ▸ rfl
  case refine_2 =>
    intro fss hp
    refine ⟨_, rfl, fun f hf => ?_⟩
    have ⟨fs, hfs, hf⟩ := List.mem_flatten.mp hf
    exact hp fs hfs f hf

-- Two commands can only share an alias if they share it in the first place.
theorem ownAlias_of_mem_aliasFindings {names : List String} {claimed : Ordered Command}
    {all ws : List (Command × String)} (hs : ws ⊆ all)
    (hc : ∀ {w o}, claimed.get? w = some o → (o, w) ∈ all)
    (hn : ∀ {c w}, (c, w) ∈ all → w ≠ c.name → w ∉ names)
    (hd : ∀ {c d w}, (c, w) ∈ all → (d, w) ∈ all → c = d)
    (h : f ∈ aliasFindings names claimed ws) : ∃ w, f.violation = .ownAlias w := by
  induction ws generalizing claimed
  case nil => cases h
  case cons a ws hi =>
    obtain ⟨c, w⟩ := a
    have hm : (c, w) ∈ all := hs List.mem_cons_self
    have hs : ws ⊆ all := fun a ha => hs (List.mem_cons_of_mem _ ha)
    have hc' : ∀ {v o}, (claimed.put w c).get? v = some o → (o, v) ∈ all := by
      intro v o ho
      by_cases hv : v = w
      case pos =>
        subst hv
        rw [Ordered.get?_put_self] at ho
        exact Option.some.inj ho ▸ hm
      case neg => exact hc (Ordered.get?_put_of_ne hv ▸ ho)
    unfold aliasFindings at h
    split at h
    case isTrue =>
      cases List.mem_cons.mp h
      case inl h => exact ⟨w, h ▸ rfl⟩
      case inr h => exact hi hs hc h
    case isFalse hw =>
      rw [if_neg (by simpa using hn hm hw)] at h
      split at h
      case h_1 o ho =>
        cases hd (hc ho) hm
        rw [if_neg (by simp)] at h
        exact hi hs hc' h
      case h_2 => exact hi hs hc' h

namespace Joined

theorem isBrokenChain_eq_false (j : t.Joined) (h : c ∈ t.nodes) : t.isBrokenChain c = false := by
  have ⟨cs, w⟩ := j.way h
  -- As for a path, nothing on the way has been seen before.
  suffices ∀ n seen, cs.length < n → (∀ e ∈ cs, e.index ∉ seen) →
      isBrokenChain.go t n seen c = false by
    have hl := w.length_le j
    exact this _ _ (by omega) (by simp)
  clear h
  induction w
  case root h =>
    intro n seen hn _
    have hp := (Way.root h).parent_eq_none_iff j |>.mpr rfl
    cases n
    case zero   => cases hn
    case succ n => simp [isBrokenChain.go, hp]
  case child cs c d w hb hi =>
    intro n seen hn hs
    cases n
    case zero   => cases hn
    case succ n =>
      have hd : d.index ∉ seen := hs d (by simp)
      have hnn := j.index_nonneg w.mem_nodes
      have := hi n (d.index :: seen) (by simpa using hn) (w.index_not_mem j hb hs)
      simp [isBrokenChain.go, hb.parent, hd, j.getElem?_index w.mem_nodes, this]
      omega

theorem pointsBack (j : t.Joined) (h : c ∈ t.nodes) {n : String} {i : Int}
    (hm : (n, i) ∈ c.children) : t.pointsBack c n i := by
  have ⟨p, hp⟩ := List.getElem?_of_mem h
  have ⟨k, d, hk, hd, hpar, hn⟩ := j.child hp hm
  have hnn : ¬ i < 0 := by omega
  simp [Tree.pointsBack, hk, hd, hpar, hn, j.index hp]

theorem structureFindings_eq_ok (j : t.Joined) : t.structureFindings = .ok [] := by
  have ⟨r, hr, _, hp⟩ := j.root_eq_ok
  have hnodes : ∀ c ∈ t.nodes, (if t.isBrokenChain c then [⟨c.line, .brokenChain c.name⟩] else []) ++
      (c.children.flatMap fun e =>
        if t.pointsBack c e.1 e.2 then [] else [⟨c.line, .strayChild e.1⟩]) = ([] : List Finding) := by
    intro c hc
    have : ∀ e ∈ c.children, t.pointsBack c e.1 e.2 := fun e he => j.pointsBack hc he
    simp only [j.isBrokenChain_eq_false hc, Bool.false_eq_true, if_false, List.nil_append]
    exact List.flatMap_eq_nil_iff.mpr fun e he => by simp [this e he]
  rw [structureFindings, hr, ok_bind]
  simp only [hp, Option.isSome_none, Bool.false_eq_true, if_false, List.nil_append, pure_eq_ok]
  exact congrArg _ (List.flatMap_eq_nil_iff.mpr hnodes)

theorem label_eq_ok (j : t.Joined) (h : c ∈ t.nodes) : ∃ l, t.label c = .ok l :=
  exists_label_iff.mpr (j.path_eq_ok h)

theorem shadowFindings_eq_ok (j : t.Joined) (h : c ∈ t.nodes) :
    ∃ fs, t.shadowFindings c = .ok fs ∧ ∀ f ∈ fs, f.violation.isMinor := by
  refine shadowFindings_ok fun ha => ?_
  cases ha
  case self      => exact j.label_eq_ok h
  case parent hd => exact j.label_eq_ok (mem_nodes_of_node hd)

theorem childFindings_eq_ok (j : t.Joined) (u : t.Unambiguous) (h : c ∈ t.nodes) :
    ∃ fs, t.childFindings c = .ok fs ∧ ∀ f ∈ fs, f.violation.isMinor := by
  refine ⟨_, by rw [childFindings, j.childrenOf_eq_ok h]; rfl, ?_⟩
  intro f hf
  have hall : ∀ {d : Command} {w : String},
      (d, w) ∈ (t.subcommands c).flatMap (fun d => d.aliases.map (d, ·)) →
        t.Below c d ∧ w ∈ d.aliases := by
    intro d w hm
    simp only [List.mem_flatMap, List.mem_map, Prod.mk.injEq] at hm
    have ⟨_, he, _, hw, hd, hv⟩ := hm
    exact hd ▸ hv ▸ ⟨(j.mem_subcommands_iff h).mp he, hw⟩
  suffices ∃ w, f.violation = .ownAlias w by
    have ⟨w, hw⟩ := this
    exact hw ▸ rfl
  refine ownAlias_of_mem_aliasFindings (List.Subset.refl _) (by simp [Ordered.get?]) ?_ ?_ hf
  case refine_1 =>
    intro d w hm hw hn
    obtain ⟨hb, ha⟩ := hall hm
    obtain ⟨e, he, hne⟩ := List.mem_map.mp hn
    have hbe := (j.mem_subcommands_iff h).mp he
    have := u hb.mem hbe.mem (hb.parent.trans hbe.parent.symm) ha (hne ▸ List.mem_cons_self)
    exact hw (this ▸ hne.symm)
  case refine_2 =>
    intro d e w hd he
    obtain ⟨hbd, hwd⟩ := hall hd
    obtain ⟨hbe, hwe⟩ := hall he
    exact u hbd.mem hbe.mem (hbd.parent.trans hbe.parent.symm) hwd (List.mem_cons_of_mem _ hwe)

-- All that can be wrong with a command lies in its parameters and their order.
theorem commandFindings_eq_ok (j : t.Joined) (u : t.Unambiguous) (h : c ∈ t.nodes) :
    ∃ owner minor, t.commandFindings c = .ok (paramFindings owner [] c.params ++
      orderFindings owner none none c.positionals ++ minor) ∧ ∀ f ∈ minor, f.violation.isMinor := by
  have ⟨owner, ho⟩ := j.label_eq_ok h
  have ⟨shadows, hs, hsp⟩ := j.shadowFindings_eq_ok h
  have ⟨children, hc, hcp⟩ := j.childFindings_eq_ok u h
  refine ⟨owner, shadows ++ children, by simp [commandFindings, ho, hs, hc], ?_⟩
  intro f hf
  exact (List.mem_append.mp hf).elim (hsp f) (hcp f)

-- The findings are those of the commands.
theorem findings_eq_ok (j : t.Joined) (u : t.Unambiguous) :
    ∃ fs, t.findings = .ok fs ∧
      ∀ f, f ∈ fs ↔ ∃ c ∈ t.nodes, ∃ gs, t.commandFindings c = .ok gs ∧ f ∈ gs := by
  have ⟨cs, hcs, hm⟩ := j.walk_eq_ok
  have ⟨fss, hfss⟩ : ∃ fss, cs.mapM t.commandFindings = .ok fss := exists_mapM fun c hc =>
    have ⟨_, _, hf, _⟩ := j.commandFindings_eq_ok u ((hm c).mp hc)
    ⟨_, hf⟩
  refine ⟨fss.flatten, by simp [findings, j.structureFindings_eq_ok, hcs, hfss], fun f => ?_⟩
  rw [List.mem_flatten]
  constructor
  case mp =>
    rintro ⟨gs, hgs, hf⟩
    have ⟨c, hc, hg⟩ := exists_of_mem_mapM hfss hgs
    exact ⟨c, (hm c).mp hc, gs, hg, hf⟩
  case mpr =>
    rintro ⟨c, hc, gs, hg, hf⟩
    have ⟨gs', hgs, hg'⟩ := exists_of_mapM_eq_ok hfss ((hm c).mpr hc)
    cases hg.symm.trans hg'
    exact ⟨gs, hgs, hf⟩

end Joined

theorem Sound.findings_eq_ok (s : t.Sound) :
    ∃ fs, t.findings = .ok fs ∧
      ∀ f ∈ fs, f.violation.isOfParams ∨ ∃ w, f.violation = .ownAlias w := by
  have ⟨fs, hfs, hm⟩ := s.joined.findings_eq_ok s.unambiguous
  refine ⟨fs, hfs, fun f hf => ?_⟩
  have ⟨c, hc, gs, hgs, hf⟩ := (hm f).mp hf
  have ⟨owner, minor, hg, hp⟩ := s.joined.commandFindings_eq_ok s.unambiguous hc
  cases hgs.symm.trans hg
  simp only [List.mem_append, or_assoc] at hf
  obtain hf | hf | hf := hf
  · exact .inl (isOfParams_paramFindings hf)
  · exact .inl (of_mem_orderFindings hf).1
  · exact Violation.isOfParams_or_ownAlias_of_isMinor (hp f hf)

end Tree

end ShellArgs
