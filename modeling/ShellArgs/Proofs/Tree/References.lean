import Mathlib.Data.List.Perm.Subperm
import ShellArgs.Proofs.Tree.Joined
import ShellArgs.Proofs.Tree.Visits
import ShellArgs.Tree.Validation

-- Links to parents in any tree. The path of a command comes by all commands above it, so that it
-- can only be told if all of their links lead somewhere.

namespace ShellArgs

open Outcome

namespace Tree

-- A command and those that links to parents lead to from there.
inductive Above (t : Tree) (c : Command) : Command → Prop
  | self   : Above t c c
  | parent : Above t c d → d.parent = some p → t.node p = .ok e → Above t c e

-- All references that are followed from the root on lead somewhere.
structure Closed (t : Tree) : Prop where
  child  : ∀ {c : Command} {n : String} {i : Int}, t.Reached c → (n, i) ∈ c.children → t.Resolves i
  parent : ∀ {c d : Command} {p : Int}, t.Reached c → t.Above c d → d.parent = some p → t.Resolves p

variable {t : Tree} {c d e : Command} {p : Int}

theorem Above.trans (h : t.Above c d) (h' : t.Above d e) : t.Above c e := by
  induction h'
  case self              => exact h
  case parent hp he hi => exact .parent hi hp he

theorem Closed.of_nodes
    (h : ∀ c ∈ t.nodes, (∀ e ∈ c.children, t.Resolves e.2) ∧ ∀ p ∈ c.parent, t.Resolves p) :
    t.Closed where
  child hr hm := (h _ hr.mem_nodes).1 _ hm
  parent hr ha hp := by
    cases ha
    case self      => exact (h _ hr.mem_nodes).2 _ hp
    case parent he => exact (h _ (mem_nodes_of_node he)).2 _ hp

section Path

variable {names ns : List String}

theorem exists_path_go (n : Nat) (seen : List Int) (names : List String)
    (h : ∀ {d p}, t.Above c d → d.parent = some p → t.Resolves p) :
    ∃ ns, path.go t n seen c names = .ok ns := by
  induction n generalizing c seen names
  case zero => exact ⟨names, rfl⟩
  case succ n hi =>
    cases hp : c.parent
    case none => exact ⟨names, by simp [path.go, hp]⟩
    case some p =>
      by_cases hs : c.index ∈ seen
      case pos => exact ⟨names, by simp [path.go, hp, hs]⟩
      case neg =>
        have ⟨d, hd⟩ := exists_node_iff.mpr (h .self hp)
        have ⟨ns, hns⟩ := hi (c.index :: seen) (c.name :: names) fun ha =>
          h (Above.trans (.parent .self hp hd) ha)
        exact ⟨ns, by simp [path.go, hp, hs, hd, hns]⟩

theorem exists_path (h : ∀ {d p}, t.Above c d → d.parent = some p → t.Resolves p) :
    ∃ ns, t.path c = .ok ns :=
  exists_path_go _ _ _ h

-- The commands of a path that was told are closed under links to parents. Those in `passed` are
-- the commands that were seen before. There are not enough nodes for the path to be cut short.
theorem closed_of_path_go {n : Nat} (u : t.Distinct) (passed : List Command) (hd : passed.Nodup)
    (hm : ∀ d ∈ passed, d ∈ t.nodes) (hc : c ∈ t.nodes) (hn : t.nodes.length < n + passed.length)
    (h : path.go t n (passed.map (·.index)) c names = .ok ns) :
    ∃ ds, c ∈ ds ++ passed ∧
      ∀ d ∈ ds, ∀ p, d.parent = some p → ∃ e ∈ ds ++ passed, t.node p = .ok e := by
  induction n generalizing passed c names
  case zero =>
    have := (List.subperm_of_subset hd hm).length_le
    omega
  case succ n hi =>
    by_cases hs : c ∈ passed
    case pos => exact ⟨[], by simpa using hs, by simp⟩
    case neg =>
      have hi' : c.index ∉ passed.map (·.index) := by
        intro hs'
        have ⟨d, hd, he⟩ := List.mem_map.mp hs'
        exact hs (u (hm d hd) hc he ▸ hd)
      cases hp : c.parent
      case none => exact ⟨[c], by simp, by simp [hp]⟩
      case some p =>
        simp only [path.go, hp, List.contains_eq_mem, hi', decide_false, Bool.false_eq_true,
          if_false] at h
        have ⟨d, hd', h⟩ := bind_eq_ok_iff.mp h
        have hm' : ∀ e ∈ c :: passed, e ∈ t.nodes := by
          intro e he
          cases List.mem_cons.mp he
          case inl he => exact he ▸ hc
          case inr he => exact hm e he
        have ⟨ds, hds, hcl⟩ := hi (c :: passed) (List.nodup_cons.mpr ⟨hs, hd⟩) hm'
          (mem_nodes_of_node hd') (by rw [List.length_cons]; omega) h
        have hback : ∀ {e}, e ∈ ds ++ c :: passed → e ∈ (c :: ds) ++ passed := by
          intro e he
          simp only [List.mem_append, List.cons_append, List.mem_cons] at he ⊢
          rwa [or_left_comm]
        refine ⟨c :: ds, by simp, fun e he q hq => ?_⟩
        cases List.mem_cons.mp he
        case inl he =>
          subst he
          cases hp.symm.trans hq
          exact ⟨d, hback hds, hd'⟩
        case inr he =>
          have ⟨e', he', hn'⟩ := hcl e he q hq
          exact ⟨e', hback he', hn'⟩

-- So no link above a command leads nowhere if its path can be told.
theorem resolves_of_path (u : t.Distinct) (hc : c ∈ t.nodes) (h : t.path c = .ok ns)
    (ha : t.Above c d) (hp : d.parent = some p) : t.Resolves p := by
  have ⟨ds, hds, hcl⟩ := closed_of_path_go u [] .nil (by simp) hc (by simp) h
  rw [List.append_nil] at hds hcl
  have hm : d ∈ ds := by
    clear hp
    induction ha
    case self => exact hds
    case parent hq he hi =>
      have ⟨e, hm, he'⟩ := hcl _ hi _ hq
      exact Except.ok.inj (he.symm.trans he') ▸ hm
  have ⟨e, _, he⟩ := hcl d hm p hp
  exact exists_node_iff.mp ⟨e, he⟩

theorem exists_label_iff : (∃ l, t.label c = .ok l) ↔ ∃ ns, t.path c = .ok ns := by
  constructor
  case mp =>
    rintro ⟨l, h⟩
    have ⟨ns, hns, _⟩ := bind_eq_ok_iff.mp h
    exact ⟨ns, hns⟩
  case mpr =>
    rintro ⟨ns, h⟩
    cases ns
    case nil  => exact ⟨_, by rw [label, h]; rfl⟩
    case cons => exact ⟨_, by rw [label, h]; rfl⟩

end Path

-- The commands around a command are above it.
theorem above_of_mem_enclosing (h : d ∈ t.enclosing c) : t.Above c d := by
  suffices ∀ n seen e, t.Above c e → d ∈ enclosing.go t n seen e.parent → t.Above c d from
    this _ _ c .self h
  intro n
  induction n
  case zero => simp [enclosing.go]
  case succ n hi =>
    intro seen e ha h
    cases hp : e.parent
    case none =>
      rw [hp] at h
      cases h
    case some p =>
      rw [hp, enclosing.go] at h
      split at h
      case isTrue  => cases h
      case isFalse hs =>
        split at h
        case h_2 => cases h
        case h_1 a hn =>
          simp only [Bool.or_eq_true, decide_eq_true_eq, not_or, Int.not_lt] at hs
          have hup : t.Above c a := by
            refine .parent ha hp ?_
            rw [← Int.toNat_of_nonneg hs.2]
            exact node_eq_ok hn
          cases List.mem_cons.mp h
          case inl h => exact h ▸ hup
          case inr h => exact hi _ a hup h

end Tree

end ShellArgs
