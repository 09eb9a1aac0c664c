import ShellArgs.Proofs.Tree.Validation

namespace ShellArgs

open Outcome

-- The lines that belong to a command are of a kind, but for the line of the root.
structure Command.Located (P : Int → Prop) (c : Command) : Prop where
  line   : c.parent.isSome → P c.line
  params : ∀ p ∈ c.params, P p.line

namespace Tree

variable {t : Tree} {c : Command} {P : Int → Prop} {f : Finding} {fs : List Finding}
variable {owner : String}

def Located (P : Int → Prop) (t : Tree) : Prop :=
  ∀ c ∈ t.nodes, c.Located P

theorem line_of_mem_paramFindings {earlier ps : List Param}
    (h : f ∈ paramFindings owner earlier ps) : ∃ p ∈ ps, f.line = p.line := by
  induction ps generalizing earlier with
  | nil => cases h
  | cons p ps hi =>
    rcases List.mem_append.mp h with h | h
    case inl =>
      obtain ⟨v, _, rfl⟩ := List.mem_map.mp h
      exact ⟨p, List.mem_cons_self, rfl⟩
    case inr =>
      obtain ⟨q, hq, hl⟩ := hi h
      exact ⟨q, List.mem_cons_of_mem p hq, hl⟩

theorem line_of_mem_orderFindings {variadic optional : Option Param} {ps : List Param}
    (h : f ∈ orderFindings owner variadic optional ps) : ∃ p ∈ ps, f.line = p.line := by
  induction ps generalizing variadic optional with
  | nil => cases h
  | cons p ps hi =>
    simp only [orderFindings, List.mem_append, or_assoc] at h
    obtain h | h | h := h
    case inl =>
      refine ⟨p, List.mem_cons_self, ?_⟩
      split at h
      case h_1 => split at h <;> exact List.mem_singleton.mp h ▸ rfl
      case h_2 => cases h
    case inr.inl =>
      refine ⟨p, List.mem_cons_self, ?_⟩
      split at h
      case h_1 =>
        split at h
        case isTrue  => exact List.mem_singleton.mp h ▸ rfl
        case isFalse => cases h
      case h_2 => cases h
    case inr.inr =>
      obtain ⟨q, hq, hl⟩ := hi h
      exact ⟨q, List.mem_cons_of_mem p hq, hl⟩

theorem line_of_mem_shadowFindings (hfs : t.shadowFindings c = .ok fs) (h : f ∈ fs) :
    ∃ p ∈ c.params, f.line = p.line := by
  obtain ⟨fss, hfss, hfs⟩ := bind_eq_ok_iff.mp hfs
  cases hfs
  obtain ⟨gs, hgs, hf⟩ := List.mem_flatten.mp h
  obtain ⟨p, hp, hg⟩ := exists_of_mem_mapM hfss hgs
  refine ⟨p, hp, ?_⟩
  split at hg
  case h_1 =>
    cases hg
    cases hf
  case h_2 =>
    obtain ⟨_, _, hg⟩ := bind_eq_ok_iff.mp hg
    obtain ⟨_, _, hg⟩ := bind_eq_ok_iff.mp hg
    cases hg
    exact List.mem_singleton.mp hf ▸ rfl

theorem line_of_mem_aliasFindings {names : List String} {claimed : Ordered Command}
    {ws : List (Command × String)} (h : f ∈ aliasFindings names claimed ws) :
    ∃ e ∈ ws, f.line = e.1.line := by
  induction ws generalizing claimed with
  | nil => cases h
  | cons e ws hi =>
    obtain ⟨c, w⟩ := e
    have hrest {claimed : Ordered Command} (h : f ∈ aliasFindings names claimed ws) :
        ∃ e ∈ (c, w) :: ws, f.line = e.1.line :=
      have ⟨e, he, hl⟩ := hi h
      ⟨e, List.mem_cons_of_mem _ he, hl⟩
    have hcons {v : Violation} (h : f ∈ ⟨c.line, v⟩ :: aliasFindings names claimed ws) :
        ∃ e ∈ (c, w) :: ws, f.line = e.1.line := by
      rcases List.mem_cons.mp h with rfl | h
      case inl => exact ⟨(c, w), List.mem_cons_self, rfl⟩
      case inr => exact hrest h
    unfold aliasFindings at h
    split at h
    case isTrue  => exact hcons h
    case isFalse =>
      split at h
      case isTrue  => exact hcons h
      case isFalse =>
        split at h
        case h_2 => exact hrest h
        case h_1 =>
          split at h
          case isTrue  => exact hcons h
          case isFalse => exact hrest h

theorem line_of_mem_childFindings (hfs : t.childFindings c = .ok fs) (h : f ∈ fs) :
    ∃ cs, t.childrenOf c = .ok cs ∧ ∃ d ∈ cs, f.line = d.line := by
  obtain ⟨cs, hcs, hfs⟩ := bind_eq_ok_iff.mp hfs
  cases hfs
  obtain ⟨e, he, hl⟩ := line_of_mem_aliasFindings h
  obtain ⟨d, hd, he⟩ := List.mem_flatMap.mp he
  obtain ⟨_, _, rfl⟩ := List.mem_map.mp he
  exact ⟨cs, hcs, d, hd, hl⟩

theorem Located.of_commandFindings (h : t.Located P) (j : t.Joined) (hc : c ∈ t.nodes)
    (hfs : t.commandFindings c = .ok fs) : ∀ f ∈ fs, P f.line := by
  have hparam (f : Finding) : (∃ p ∈ c.params, f.line = p.line) → P f.line := by
    rintro ⟨p, hp, hl⟩
    exact hl ▸ (h c hc).params p hp
  obtain ⟨owner, _, hfs⟩ := bind_eq_ok_iff.mp hfs
  obtain ⟨shadows, hshadows, hfs⟩ := bind_eq_ok_iff.mp hfs
  obtain ⟨minor, hminor, hfs⟩ := bind_eq_ok_iff.mp hfs
  cases hfs
  refine List.forall_mem_append.mpr ⟨List.forall_mem_append.mpr ⟨List.forall_mem_append.mpr
    ⟨fun f hf => ?param, fun f hf => ?order⟩, fun f hf => ?shadow⟩, fun f hf => ?child⟩
  case param  => exact hparam f (line_of_mem_paramFindings hf)
  case shadow => exact hparam f (line_of_mem_shadowFindings hshadows hf)
  case order =>
    obtain ⟨p, hp, hl⟩ := line_of_mem_orderFindings hf
    exact hparam f ⟨p, (List.mem_filter.mp hp).1, hl⟩
  case child =>
    obtain ⟨cs, hcs, d, hd, hl⟩ := line_of_mem_childFindings hminor hf
    cases hcs.symm.trans (j.childrenOf_eq_ok hc)
    have hb := (j.mem_subcommands_iff hc).mp hd
    exact hl ▸ (h d hb.mem).line (hb.parent ▸ rfl)

-- Nothing is found in the structure of a tree that holds together.
theorem Located.of_findings (h : t.Located P) (s : t.Sound) (hfs : t.findings = .ok fs) :
    ∀ f ∈ fs, P f.line := by
  obtain ⟨gs, hgs, hm⟩ := s.joined.findings_eq_ok s.unambiguous
  cases hfs.symm.trans hgs
  intro f hf
  obtain ⟨c, hc, gs, hgs, hf⟩ := (hm f).mp hf
  exact h.of_commandFindings s.joined hc hgs f hf

end Tree

end ShellArgs
