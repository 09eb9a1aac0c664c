import Mathlib.Data.List.Basic
import ShellArgs.Proofs.Outcome
import ShellArgs.Tree.Basic

namespace ShellArgs

open Outcome

namespace Tree

-- A subcommand of another command.
structure Below (t : Tree) (c d : Command) : Prop where
  mem    : d ∈ t.nodes
  parent : d.parent = some c.index

-- The subcommands of a command, where no entry is wrong.
def subcommands (t : Tree) (c : Command) : List Command :=
  c.children.filterMap fun (_, i) => t.nodes[i.toNat]?

-- The commands on the way from the root to a command, without the root.
inductive Way (t : Tree) : List Command → Command → Prop
  | root  : t.root = .ok c → Way t [] c
  | child : Way t cs c → t.Below c d → Way t (cs ++ [d]) d

structure Joined (t : Tree) : Prop where
  root  : ∃ r, t.nodes[0]? = some r ∧ r.parent = none
  index : ∀ {i : Nat} {c : Command}, t.nodes[i]? = some c → c.index = i
  -- Every other command has a parent that knows it by its name.
  parent : ∀ {i : Nat} {c : Command}, t.nodes[i]? = some c → i ≠ 0 →
    ∃ (p : Nat) (d : Command), t.nodes[p]? = some d ∧ c.parent = some (p : Int) ∧
      d.children.get? c.name = some (i : Int)
  -- There are no other entries for children.
  child : ∀ {p : Nat} {d : Command} {n : String} {j : Int}, t.nodes[p]? = some d → (n, j) ∈ d.children →
    ∃ (i : Nat) (c : Command), j = i ∧ t.nodes[i]? = some c ∧ c.parent = some (p : Int) ∧
      c.name = n
  names : ∀ {c : Command}, c ∈ t.nodes → c.children.names.Nodup
  -- No command is above itself.
  way : ∀ {c : Command}, c ∈ t.nodes → ∃ cs, t.Way cs c

-- An alias calls none but its own command among those with one parent.
def Unambiguous (t : Tree) : Prop :=
  ∀ {c d : Command} {w : String}, c ∈ t.nodes → d ∈ t.nodes → c.parent = d.parent →
    w ∈ c.aliases → w ∈ d.callNames → c = d

-- The place of a node that there is.
theorem node_eq_ok {t : Tree} {i : Nat} {c : Command} (h : t.nodes[i]? = some c) :
    t.node i = .ok c := by
  have ⟨hi, _⟩ := List.getElem?_eq_some_iff.mp h
  have hp : t.place? i = some i := (place?_eq_some_iff_of_nonneg (by omega)).mpr ⟨rfl, hi⟩
  simp [node, hp, h]

theorem getElem?_of_node {t : Tree} {i : Nat} {c : Command} (h : t.node i = .ok c) :
    t.nodes[i]? = some c := by
  simp only [node] at h
  split at h
  case h_2 => cases h
  case h_1 p hp =>
    obtain ⟨hip, _⟩ := (place?_eq_some_iff_of_nonneg (Int.natCast_nonneg i)).mp hp
    cases Int.ofNat_inj.mp hip
    split at h
    case h_1 h' =>
      cases h
      exact h'
    case h_2 => cases h

namespace Joined

variable {t : Tree} {c d : Command} {w : String}

theorem root_eq_ok (j : t.Joined) : ∃ r, t.root = .ok r ∧ t.nodes[0]? = some r ∧ r.parent = none := by
  have ⟨r, h, hp⟩ := j.root
  exact ⟨r, node_eq_ok h, h, hp⟩

theorem index_nonneg (j : t.Joined) (h : c ∈ t.nodes) : 0 ≤ c.index := by
  have ⟨i, hi⟩ := List.getElem?_of_mem h
  have := j.index hi
  omega

theorem getElem?_index (j : t.Joined) (h : c ∈ t.nodes) : t.nodes[c.index.toNat]? = some c := by
  have ⟨i, hi⟩ := List.getElem?_of_mem h
  rw [j.index hi]
  exact hi

theorem node_index (j : t.Joined) (h : c ∈ t.nodes) : t.node c.index = .ok c := by
  have ⟨i, hi⟩ := List.getElem?_of_mem h
  rw [j.index hi]
  exact node_eq_ok hi

theorem eq_of_index_eq (j : t.Joined) (hc : c ∈ t.nodes) (hd : d ∈ t.nodes) (h : c.index = d.index) :
    c = d := by
  have hi := j.getElem?_index hc
  rw [h, j.getElem?_index hd] at hi
  exact (Option.some.inj hi).symm

-- The root is the only command without a parent.
theorem parent_eq_none_iff (j : t.Joined) (h : c ∈ t.nodes) : c.parent = none ↔ c.index = 0 := by
  have ⟨i, hi⟩ := List.getElem?_of_mem h
  have ⟨r, hr, hp⟩ := j.root
  rw [j.index hi]
  by_cases hz : i = 0
  case pos => simp_all
  case neg =>
    have ⟨_, _, _, hp, _⟩ := j.parent hi hz
    simp [hp, hz]

theorem exists_parent (j : t.Joined) (h : c ∈ t.nodes) (hp : c.parent ≠ none) :
    ∃ d ∈ t.nodes, t.Below d c ∧ d.children.get? c.name = some c.index := by
  have ⟨i, hi⟩ := List.getElem?_of_mem h
  have hz : i ≠ 0 := by
    have := mt (j.parent_eq_none_iff h).mpr hp
    rw [j.index hi] at this
    omega
  have ⟨p, d, hd, hc, hg⟩ := j.parent hi hz
  refine ⟨d, List.mem_of_getElem? hd, ⟨h, ?_⟩, ?_⟩
  · rw [j.index hd, hc]
  · rw [j.index hi, hg]

-- A command knows its subcommands by their names.
theorem get?_children (j : t.Joined) (h : c ∈ t.nodes) (hb : t.Below c d) :
    c.children.get? d.name = some d.index := by
  have ⟨p, hp, hbp, hg⟩ := j.exists_parent hb.mem (by simp [hb.parent])
  have hpc : p.index = c.index := by simpa [hb.parent] using hbp.parent.symm
  cases j.eq_of_index_eq hp h hpc
  exact hg

theorem node_child (j : t.Joined) (hc : c ∈ t.nodes) {n : String} {i : Int}
    (h : (n, i) ∈ c.children) :
    ∃ d, t.nodes[i.toNat]? = some d ∧ t.node i = .ok d ∧ t.Below c d ∧ d.name = n := by
  have ⟨p, hp⟩ := List.getElem?_of_mem hc
  have ⟨k, d, hk, hd, hpar, hn⟩ := j.child hp h
  subst hk
  refine ⟨d, hd, node_eq_ok hd, ⟨List.mem_of_getElem? hd, ?_⟩, hn⟩
  rw [hpar, j.index hp]

theorem childrenOf_eq_ok (j : t.Joined) (h : c ∈ t.nodes) :
    t.childrenOf c = .ok (t.subcommands c) := by
  have hm : ∀ e ∈ c.children, t.node e.2 = .ok ((t.nodes[e.2.toNat]?).getD c) := by
    intro e he
    have ⟨d, hd, hn, _, _⟩ := j.node_child h he
    simp [hn, hd]
  rw [childrenOf, mapM_eq_ok hm, subcommands, ← List.filterMap_eq_map]
  congr 1
  apply List.filterMap_congr
  intro e he
  have ⟨d, hd, _⟩ := j.node_child h he
  simp [hd]

theorem mem_subcommands_iff (j : t.Joined) (h : c ∈ t.nodes) : d ∈ t.subcommands c ↔ t.Below c d := by
  simp only [subcommands, List.mem_filterMap]
  constructor
  · rintro ⟨⟨n, i⟩, he, hd⟩
    have ⟨d', hd', _, hb, _⟩ := j.node_child h he
    cases hd.symm.trans hd'
    exact hb
  · intro hb
    have hg := j.get?_children h hb
    exact ⟨(d.name, d.index), (Ordered.get?_eq_some_iff (j.names h)).mp hg, j.getElem?_index hb.mem⟩

theorem mem_of_mem_subcommands (j : t.Joined) (h : c ∈ t.nodes) (hd : d ∈ t.subcommands c) :
    d ∈ t.nodes :=
  ((j.mem_subcommands_iff h).mp hd).mem

end Joined

end Tree

end ShellArgs
