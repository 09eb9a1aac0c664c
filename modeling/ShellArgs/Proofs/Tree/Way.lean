import Mathlib.Data.List.Nodup
import Mathlib.Data.List.Perm.Subperm
import ShellArgs.Proofs.Tree.Joined

-- Ways from the root to a command. Where references fit there is exactly one way to each
-- command, and the path of a command consists of the names on it.

namespace ShellArgs.Tree

open Outcome

namespace Way

variable {t : Tree} {c d : Command} {cs ds : List Command}

theorem mem_nodes (w : t.Way cs c) : c ∈ t.nodes := by
  cases w
  case root h     => exact mem_nodes_of_node h
  case child _ hb => exact hb.mem

theorem parent_eq_none_iff (j : t.Joined) (w : t.Way cs c) : c.parent = none ↔ cs = [] := by
  cases w
  case root h =>
    have ⟨r, hr, _, hp⟩ := j.root_eq_ok
    cases h.symm.trans hr
    simp [hp]
  case child hb => simp [hb.parent]

theorem unique (j : t.Joined) (w : t.Way cs c) (w' : t.Way ds c) : cs = ds := by
  induction w generalizing ds
  case root h => exact ((w'.parent_eq_none_iff j).mp ((root h).parent_eq_none_iff j |>.mpr rfl)).symm
  case child w hb hi =>
    cases w'
    case root h =>
      have := (root h).parent_eq_none_iff j |>.mpr rfl
      simp [hb.parent] at this
    case child w' hb' =>
      have hi' := Option.some.inj (hb.parent.symm.trans hb'.parent)
      cases j.eq_of_index_eq w.mem_nodes w'.mem_nodes hi'
      rw [hi w']

-- A way leads along the ways to all commands on it.
theorem exists_of_mem (w : t.Way cs c) (hd : d ∈ cs) : ∃ ds, t.Way ds d ∧ ds.length ≤ cs.length := by
  induction w
  case root => cases hd
  case child cs c e w hb hi =>
    cases List.mem_append.mp hd
    case inl hd =>
      have ⟨ds, wd, hl⟩ := hi hd
      exact ⟨ds, wd, by rw [List.length_append]; omega⟩
    case inr hd =>
      cases List.mem_singleton.mp hd
      exact ⟨_, .child w hb, Nat.le_refl _⟩

theorem not_mem (j : t.Joined) (w : t.Way cs c) (hb : t.Below c d) : d ∉ cs := by
  intro hd
  have ⟨ds, wd, hl⟩ := w.exists_of_mem hd
  have he := wd.unique j (.child w hb)
  rw [he, List.length_append, List.length_singleton] at hl
  omega

theorem nodup (j : t.Joined) (w : t.Way cs c) : cs.Nodup := by
  induction w
  case root => exact List.nodup_nil
  case child w hb hi =>
    rw [List.nodup_append_comm]
    exact List.nodup_cons.mpr ⟨w.not_mem j hb, hi⟩

theorem length_le (j : t.Joined) (w : t.Way cs c) : cs.length ≤ t.nodes.length := by
  refine (List.subperm_of_subset (w.nodup j) fun d hd => ?_).length_le
  have ⟨_, wd, _⟩ := w.exists_of_mem hd
  exact wd.mem_nodes

-- Nothing on a way has been seen before its end is.
theorem index_not_mem (j : t.Joined) (w : t.Way cs c) (hb : t.Below c d) {seen : List Int}
    (hs : ∀ e ∈ cs ++ [d], e.index ∉ seen) : ∀ e ∈ cs, e.index ∉ d.index :: seen := by
  intro e he hm
  cases List.mem_cons.mp hm
  case inl hi =>
    have ⟨_, we, _⟩ := w.exists_of_mem he
    cases j.eq_of_index_eq we.mem_nodes hb.mem hi
    exact w.not_mem j hb he
  case inr hm => exact hs e (List.mem_append_left _ he) hm

theorem path_go (j : t.Joined) (w : t.Way cs c) (n : Nat) (seen : List Int) (names : List String)
    (hn : cs.length < n) (hs : ∀ e ∈ cs, e.index ∉ seen) :
    path.go t n seen c names = .ok (cs.map (·.name) ++ names) := by
  induction w generalizing n seen names
  case root h =>
    have hp := (root h).parent_eq_none_iff j |>.mpr rfl
    cases n
    case zero   => cases hn
    case succ n => simp [path.go, hp]
  case child cs c d w hb hi =>
    cases n
    case zero   => cases hn
    case succ n =>
      have hd : d.index ∉ seen := hs d (by simp)
      have hgo := hi n (d.index :: seen) (d.name :: names) (by simpa using hn)
        (w.index_not_mem j hb hs)
      simp [path.go, hb.parent, hd, j.node_index w.mem_nodes, hgo]

theorem path_eq_ok (j : t.Joined) (w : t.Way cs c) : t.path c = .ok (cs.map (·.name)) := by
  have := w.length_le j
  simpa [path] using w.path_go j (t.nodes.length + 2) [] [] (by omega) (by simp)

end Way

theorem Joined.path_eq_ok {t : Tree} {c : Command} (j : t.Joined) (h : c ∈ t.nodes) :
    ∃ names, t.path c = .ok names :=
  have ⟨_, w⟩ := j.way h
  ⟨_, w.path_eq_ok j⟩

end ShellArgs.Tree
