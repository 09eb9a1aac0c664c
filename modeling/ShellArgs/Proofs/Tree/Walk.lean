import ShellArgs.Proofs.Tree.Visits
import ShellArgs.Proofs.Tree.Way

namespace ShellArgs

open Outcome

namespace Tree

variable {t : Tree} {c : Command}

namespace Joined

theorem distinct (j : t.Joined) : t.Distinct :=
  j.eq_of_index_eq

theorem resolves (j : t.Joined) (hc : c ∈ t.nodes) {n : String} {i : Int} (h : (n, i) ∈ c.children) :
    t.Resolves i :=
  have ⟨d, _, hd, _⟩ := j.node_child hc h
  exists_node_iff.mp ⟨d, hd⟩

theorem reached (j : t.Joined) (h : c ∈ t.nodes) : t.Reached c := by
  have ⟨cs, w⟩ := j.way h
  clear h
  induction w
  case root h => exact .root h
  case child w hb hi =>
    have hc := w.mem_nodes
    have hm := (Ordered.get?_eq_some_iff (j.names hc)).mp (j.get?_children hc hb)
    exact .child hi hm (j.node_index hb.mem)

theorem walk_eq_ok (j : t.Joined) : ∃ cs, t.walk = .ok cs ∧ ∀ c, c ∈ cs ↔ c ∈ t.nodes := by
  have ⟨_, _, h0, _⟩ := j.root_eq_ok
  have ⟨cs, hcs⟩ := exists_walk (List.ne_nil_of_mem (List.mem_of_getElem? h0)) fun h => j.resolves h.mem_nodes
  refine ⟨cs, hcs, fun c => ?_⟩
  rw [mem_walk_iff j.distinct hcs]
  exact ⟨Reached.mem_nodes, j.reached⟩

theorem nodup (j : t.Joined) : t.nodes.Nodup := by
  rw [List.nodup_iff_getElem?_ne_getElem?]
  intro i k hik hk h
  have hi := j.index (h.trans (List.getElem?_eq_getElem hk))
  rw [j.index (List.getElem?_eq_getElem hk)] at hi
  omega

-- A walk comes by each of them once.
theorem walk_perm (j : t.Joined) : ∃ cs, t.walk = .ok cs ∧ cs.Perm t.nodes := by
  have ⟨cs, hcs, hm⟩ := j.walk_eq_ok
  have ⟨_, _, v⟩ := visited_of_walk hcs
  exact ⟨cs, hcs, (List.perm_ext_iff_of_nodup (.of_map _ v.nodup) j.nodup).mpr hm⟩

end Joined

end Tree

end ShellArgs
