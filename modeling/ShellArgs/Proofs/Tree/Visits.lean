import Mathlib.Data.List.Basic
import Mathlib.Data.List.Flatten
import ShellArgs.Proofs.Outcome
import ShellArgs.Tree.Basic

-- Walks through any tree, however wrong its references are. A walk ends if all references that
-- it follows lead somewhere. It then has had enough steps to come by each index that one of them
-- leads to, and has come by no index twice.

namespace ShellArgs

open Outcome

namespace Tree

-- A reference that leads to some command. Negative ones count from the end.
def Resolves (t : Tree) (i : Int) : Prop :=
  -(t.nodes.length : Int) ≤ i ∧ i < t.nodes.length
deriving Decidable

-- No index belongs to two commands.
def Distinct (t : Tree) : Prop :=
  ∀ {c d : Command}, c ∈ t.nodes → d ∈ t.nodes → c.index = d.index → c = d

-- The commands that entries for children lead to, from the root on.
inductive Reached (t : Tree) : Command → Prop
  | root  : t.root = .ok c → Reached t c
  | child : Reached t c → (n, i) ∈ c.children → t.node i = .ok d → Reached t d

variable {t : Tree} {c d : Command} {i : Int} {seen : List Int}

theorem exists_node_iff : (∃ c, t.node i = .ok c) ↔ t.Resolves i := by
  constructor
  case mp =>
    rintro ⟨c, h⟩
    simp only [node] at h
    split at h
    case h_2 => cases h
    case h_1 p hp =>
      simp only [place?] at hp
      split at hp <;> split at hp <;> simp at hp <;> exact ⟨by omega, by omega⟩
  case mpr =>
    rintro ⟨hlo, hhi⟩
    obtain ⟨p, hp⟩ : ∃ p, t.place? i = some p := by
      simp only [place?]
      by_cases h : 0 ≤ i
      case pos => exact ⟨_, by rw [if_pos h, if_pos hhi]⟩
      case neg => exact ⟨_, by rw [if_neg h, if_pos (by omega)]⟩
    have hlt := place?_lt hp
    exact ⟨t.nodes[p], by simp [node, hp, hlt]⟩

theorem exists_root_iff : (∃ r, t.root = .ok r) ↔ t.nodes ≠ [] := by
  rw [← List.length_pos_iff, root, exists_node_iff, Resolves]
  omega

theorem mem_childrenOf_iff {ds : List Command} (h : t.childrenOf c = .ok ds) :
    d ∈ ds ↔ ∃ e ∈ c.children, t.node e.2 = .ok d :=
  ⟨exists_of_mem_mapM h, fun ⟨_, he, hd⟩ =>
    have ⟨_, hm, hd'⟩ := exists_of_mapM_eq_ok h he
    Except.ok.inj (hd.symm.trans hd') ▸ hm⟩

theorem exists_childrenOf (h : ∀ n i, (n, i) ∈ c.children → t.Resolves i) :
    ∃ ds, t.childrenOf c = .ok ds :=
  exists_mapM fun e he => exists_node_iff.mpr (h e.1 e.2 he)

theorem Reached.mem_nodes (h : t.Reached c) : c ∈ t.nodes := by
  cases h
  case root h  => exact mem_nodes_of_node h
  case child h => exact mem_nodes_of_node h

theorem Reached.of_mem_childrenOf {ds : List Command} (hc : t.Reached c)
    (h : t.childrenOf c = .ok ds) (hd : d ∈ ds) : t.Reached d :=
  have ⟨_, he, hn⟩ := (mem_childrenOf_iff h).mp hd
  .child hc he hn

-- The number of entries for children in nodes that are not visited yet.
def entriesAhead (seen : List Int) (ns : List Command) : Nat :=
  ((ns.filter (·.index ∉ seen)).flatMap (·.children)).length

theorem entriesAhead_cons_le (seen : List Int) (i : Int) (ns : List Command) :
    entriesAhead (i :: seen) ns ≤ entriesAhead seen ns := by
  refine List.Sublist.length_le (List.Sublist.flatMap ?_ _)
  refine List.monotone_filter_right ns fun c h => ?_
  simp only [decide_eq_true_eq, List.mem_cons, not_or] at h ⊢
  exact h.right

-- A visit leaves fewer entries ahead.
theorem entriesAhead_visit {ns : List Command} (h : c ∈ ns) (hs : c.index ∉ seen) :
    c.children.length + entriesAhead (c.index :: seen) ns ≤ entriesAhead seen ns := by
  induction ns
  case nil => cases h
  case cons d ns hi =>
    cases List.mem_cons.mp h
    case inl h =>
      subst h
      have := entriesAhead_cons_le seen c.index ns
      simpa [entriesAhead, hs] using this
    case inr h =>
      have := hi h
      by_cases hd : d.index ∈ seen
      case pos =>
        simpa [entriesAhead, hd] using this
      case neg =>
        by_cases hc : d.index = c.index
        case pos =>
          simp [entriesAhead, hs, hc] at this ⊢
          omega
        case neg =>
          simp [entriesAhead, hd, hc] at this ⊢
          omega

-- Commands that come up from a stack on. The indices of all commands on the stack do, unless
-- they are seen, and so do those of the children of what comes up.
structure Visited (t : Tree) (seen : List Int) (stack cs : List Command) : Prop where
  reached : ∀ c ∈ cs, t.Reached c
  stack   : ∀ c ∈ stack, c.index ∈ seen ∨ c.index ∈ cs.map (·.index)
  below   : ∀ c ∈ cs, ∀ n i, (n, i) ∈ c.children →
    ∃ d, t.node i = .ok d ∧ (d.index ∈ seen ∨ d.index ∈ cs.map (·.index))
  fresh   : ∀ c ∈ cs, c.index ∉ seen
  nodup   : (cs.map (·.index)).Nodup

namespace Visited

variable {stack cs ds : List Command}

theorem nil : Visited t seen [] [] :=
  ⟨by simp, by simp, by simp, by simp, by simp⟩

theorem skip (h : Visited t seen stack cs) (hs : c.index ∈ seen) :
    Visited t seen (c :: stack) cs where
  reached := h.reached
  stack d hd := by
    cases List.mem_cons.mp hd
    case inl he => exact .inl (he ▸ hs)
    case inr hd => exact h.stack d hd
  below := h.below
  fresh := h.fresh
  nodup := h.nodup

theorem visit (hc : t.Reached c) (hs : c.index ∉ seen) (hds : t.childrenOf c = .ok ds)
    (h : Visited t (c.index :: seen) (ds ++ stack) cs) : Visited t seen (c :: stack) (c :: cs) := by
  -- What is seen now is seen already, or it is the index of the command itself.
  have hback : ∀ {i : Int}, i ∈ c.index :: seen ∨ i ∈ cs.map (·.index) →
      i ∈ seen ∨ i ∈ (c :: cs).map (·.index) := by
    intro i hi
    simp only [List.map_cons, List.mem_cons] at hi ⊢
    rw [or_left_comm, ← or_assoc]
    exact hi
  constructor
  case reached =>
    intro d hd
    cases List.mem_cons.mp hd
    case inl he => exact he ▸ hc
    case inr hd => exact h.reached d hd
  case stack =>
    intro d hd
    cases List.mem_cons.mp hd
    case inl he => exact .inr (he ▸ List.mem_cons_self)
    case inr hd => exact hback (h.stack d (List.mem_append_right _ hd))
  case below =>
    intro d hd n i hi
    cases List.mem_cons.mp hd
    case inl h' =>
      subst h'
      have ⟨e, he, hn⟩ := exists_of_mapM_eq_ok hds hi
      exact ⟨e, hn, hback (h.stack e (List.mem_append_left _ he))⟩
    case inr hd =>
      have ⟨e, hn, he⟩ := h.below d hd n i hi
      exact ⟨e, hn, hback he⟩
  case fresh =>
    intro d hd
    cases List.mem_cons.mp hd
    case inl he => exact he ▸ hs
    case inr hd => exact fun hm => h.fresh d hd (List.mem_cons_of_mem _ hm)
  case nodup =>
    refine List.nodup_cons.mpr ⟨fun hm => ?_, h.nodup⟩
    have ⟨d, hd, hi⟩ := List.mem_map.mp hm
    exact h.fresh d hd (hi ▸ List.mem_cons_self)

theorem mem_nodes (h : Visited t seen stack cs) (hc : c ∈ cs) : c ∈ t.nodes :=
  (h.reached c hc).mem_nodes

-- Where indices tell commands apart, what comes up is not just of the right index.
theorem mem_of_index (h : Visited t seen stack cs) (u : t.Distinct) (hd : d ∈ t.nodes)
    (hi : d.index ∈ cs.map (·.index)) : d ∈ cs := by
  have ⟨c, hc, he⟩ := List.mem_map.mp hi
  exact u (h.mem_nodes hc) hd he ▸ hc

end Visited

variable {cs : List Command}

theorem exists_walk_go (h : ∀ {c n i}, t.Reached c → (n, i) ∈ c.children → t.Resolves i) (n : Nat)
    (seen : List Int) (stack : List Command) (hm : ∀ c ∈ stack, t.Reached c) :
    ∃ cs, walk.go t n seen stack = .ok cs := by
  induction n generalizing seen stack
  case zero => exact ⟨[], rfl⟩
  case succ n hi =>
    cases stack
    case nil => exact ⟨[], rfl⟩
    case cons c stack =>
      have hc := hm c List.mem_cons_self
      have hst : ∀ d ∈ stack, t.Reached d := fun d hd => hm d (List.mem_cons_of_mem c hd)
      by_cases hs : c.index ∈ seen
      case pos =>
        have ⟨cs, ho⟩ := hi seen stack hst
        exact ⟨cs, by simp [walk.go, hs, ho]⟩
      case neg =>
        have ⟨ds, hds⟩ := exists_childrenOf fun n i hn => h hc hn
        have ⟨cs, ho⟩ := hi (c.index :: seen) (ds ++ stack) fun d hd =>
          (List.mem_append.mp hd).elim (hc.of_mem_childrenOf hds) (hst d)
        exact ⟨c :: cs, by simp [walk.go, hs, hds, ho]⟩

theorem visited_of_walk_go {n : Nat} (seen : List Int) (stack : List Command)
    (hm : ∀ c ∈ stack, t.Reached c) (hn : stack.length + entriesAhead seen t.nodes ≤ n)
    (h : walk.go t n seen stack = .ok cs) : t.Visited seen stack cs := by
  induction n generalizing seen stack cs
  case zero =>
    have : stack = [] := List.length_eq_zero_iff.mp (by omega)
    subst this
    cases h
    exact .nil
  case succ n hi =>
    cases stack
    case nil =>
      cases h
      exact .nil
    case cons c stack =>
      have hc := hm c List.mem_cons_self
      have hst : ∀ d ∈ stack, t.Reached d := fun d hd => hm d (List.mem_cons_of_mem c hd)
      simp only [List.length_cons] at hn
      by_cases hs : c.index ∈ seen
      case pos =>
        simp only [walk.go, List.contains_eq_mem, hs, decide_true, if_true] at h
        exact (hi seen stack hst (by omega) h).skip hs
      case neg =>
        simp only [walk.go, List.contains_eq_mem, hs, decide_false, Bool.false_eq_true, if_false] at h
        have ⟨ds, hds, h⟩ := bind_eq_ok_iff.mp h
        have ⟨cs, hcs, h⟩ := bind_eq_ok_iff.mp h
        cases h
        have hlen : ds.length = c.children.length := length_of_mapM_eq_ok hds
        have hleft := entriesAhead_visit hc.mem_nodes hs
        have hv := hi (c.index :: seen) (ds ++ stack)
          (fun d hd => (List.mem_append.mp hd).elim (hc.of_mem_childrenOf hds) (hst d))
          (by rw [List.length_append]; omega) hcs
        exact hv.visit hc hs hds

theorem exists_walk (hr : t.nodes ≠ [])
    (h : ∀ {c n i}, t.Reached c → (n, i) ∈ c.children → t.Resolves i) : ∃ cs, t.walk = .ok cs := by
  have ⟨r, hr⟩ := exists_root_iff.mpr hr
  have ⟨cs, hcs⟩ := exists_walk_go h (1 + (t.nodes.flatMap (·.children)).length) [] [r]
    fun c hc => List.mem_singleton.mp hc ▸ .root hr
  exact ⟨cs, by rw [walk, hr, ok_bind, hcs]⟩

theorem visited_of_walk (h : t.walk = .ok cs) : ∃ r, t.root = .ok r ∧ t.Visited [] [r] cs := by
  have ⟨r, hr, h⟩ := bind_eq_ok_iff.mp h
  refine ⟨r, hr, visited_of_walk_go [] [r] (fun c hc => ?_) (by simp [entriesAhead]) h⟩
  exact List.mem_singleton.mp hc ▸ .root hr

-- A walk comes by all that is reached.
theorem mem_walk_iff (u : t.Distinct) (h : t.walk = .ok cs) : c ∈ cs ↔ t.Reached c := by
  have ⟨r, hr, v⟩ := visited_of_walk h
  refine ⟨v.reached c, fun hc => ?_⟩
  induction hc
  case root hc =>
    cases hr.symm.trans hc
    exact v.mem_of_index u (mem_nodes_of_node hc) (by simpa using v.stack r List.mem_cons_self)
  case child hn hd hi =>
    have ⟨e, he, hm⟩ := v.below _ hi _ _ hn
    cases hd.symm.trans he
    exact v.mem_of_index u (mem_nodes_of_node hd) (by simpa using hm)

end Tree

end ShellArgs
