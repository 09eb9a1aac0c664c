import Mathlib.Data.List.Nodup
import Mathlib.Data.List.Perm.Subperm
import ShellArgs.Proofs.Outcome
import ShellArgs.Proofs.Tree.Visits
import ShellArgs.Tree.Validation

-- The loops over a tree, without a bound on the number of their rounds. They end in any tree,
-- wherever its references lead to and whatever its indices are, and what they end with is what is
-- computed with a bound.

namespace ShellArgs

open Outcome

-- A loop that goes on with a new state in each round but the last, and ends after so many rounds.
inductive Halts (round : σ → σ ⊕ ρ) : Nat → σ → ρ → Prop
  | last  : round s = .inr r → Halts round 1 s r
  | again : round s = .inl s' → Halts round n s' r → Halts round (n + 1) s r

namespace Halts

variable {σ ρ : Type} {round : σ → σ ⊕ ρ}

-- A loop ends if there is something that becomes less in each round.
theorem of_measure {I : σ → Prop} (size : σ → Nat)
    (h : ∀ {s s'}, I s → round s = .inl s' → I s' ∧ size s' < size s) {s : σ} (hs : I s) :
    ∃ n ≤ size s + 1, ∃ r, Halts round n s r := by
  suffices ∀ m s, I s → size s ≤ m → ∃ n ≤ m + 1, ∃ r, Halts round n s r from
    this _ s hs (Nat.le_refl _)
  intro m
  induction m
  case zero =>
    intro s hs hm
    cases hr : round s
    case inr r => exact ⟨1, by omega, r, .last hr⟩
    case inl   =>
      have ⟨_, hlt⟩ := h hs hr
      omega
  case succ m hi =>
    intro s hs hm
    cases hr : round s
    case inr r => exact ⟨1, by omega, r, .last hr⟩
    case inl s' =>
      have ⟨hs', hlt⟩ := h hs hr
      have ⟨n, hn, r, hh⟩ := hi s' hs' (by omega)
      exact ⟨n + 1, by omega, r, .again hr hh⟩

-- What each round keeps holds when the last one begins.
theorem kept {I : σ → Prop} {Q : ρ → Prop} {n : Nat} {s : σ} {r : ρ} (h : Halts round n s r)
    (again : ∀ {s s'}, I s → round s = .inl s' → I s')
    (last : ∀ {s r}, I s → round s = .inr r → Q r) (hs : I s) : Q r := by
  induction h
  case last hr       => exact last hs hr
  case again hr _ hi => exact hi (again hs hr)

-- A loop with a bound that it does not reach.
theorem bounded {f : Nat → σ → ρ} (hf : ∀ m s, f (m + 1) s = (round s).elim (f m) id) {n m : Nat}
    {s : σ} {r : ρ} (h : Halts round n s r) (hm : n ≤ m) : f m s = r := by
  induction h generalizing m
  case last hr =>
    obtain ⟨m, rfl⟩ := Nat.exists_eq_add_of_le' hm
    rw [hf, hr]
    rfl
  case again n _ hr _ hi =>
    obtain ⟨m, rfl⟩ := Nat.exists_eq_add_of_le' (Nat.le_trans (Nat.le_add_left 1 n) hm)
    rw [hf, hr]
    exact hi (Nat.le_of_succ_le_succ hm)

end Halts

-- What a loop has seen, where it cannot see more than this.
structure Seen (range seen : List Int) : Prop where
  nodup  : seen.Nodup
  within : ∀ i ∈ seen, i ∈ range

theorem Seen.length_le (h : Seen range seen) : seen.length ≤ range.length :=
  (List.subperm_of_subset h.nodup h.within).length_le

theorem Seen.cons (h : Seen range seen) (hi : i ∈ range) (hs : i ∉ seen) :
    Seen range (i :: seen) where
  nodup  := List.nodup_cons.mpr ⟨hs, h.nodup⟩
  within := List.forall_mem_cons.mpr ⟨hi, h.within⟩

-- A loop that sees something new in each round ends when it has seen everything.
theorem Halts.of_seen {σ ρ : Type} {round : σ → σ ⊕ ρ} {I : σ → Prop} {range : List Int}
    (seen : σ → List Int)
    (h : ∀ {s s'}, I s → round s = .inl s' →
      I s' ∧ ∃ i ∈ range, i ∉ seen s ∧ seen s' = i :: seen s)
    {s : σ} (hs : I s) (hr : Seen range (seen s)) :
    ∃ n ≤ range.length - (seen s).length + 1, ∃ r, Halts round n s r := by
  refine of_measure (I := fun s => I s ∧ Seen range (seen s))
    (fun s => range.length - (seen s).length) (fun ⟨hs, hr⟩ ha => ?_) ⟨hs, hr⟩
  have ⟨hs', i, hi, hn, he⟩ := h hs ha
  have hr' := hr.cons hi hn
  have hlt := hr'.length_le
  rw [List.length_cons] at hlt
  rw [he, List.length_cons]
  exact ⟨⟨hs', hr'⟩, by omega⟩

namespace Tree

variable {t : Tree} {c d : Command}

structure Walk where
  -- The latest visit comes first.
  visited : List Command := []
  stack : List Command

namespace Walk

def seen (s : Walk) : List Int :=
  s.visited.map (·.index)

-- A walk ends when nothing is left to be visited, or when a reference leads nowhere. The command
-- with this reference is visited all the same.
def round (t : Tree) (s : Walk) : Walk ⊕ List Command × Except TreeError Unit :=
  match s.stack with
  | []         => .inr (s.visited.reverse, .ok ())
  | c :: stack =>
    if c.index ∈ s.seen then .inl { s with stack }
    else
      match t.childrenOf c with
      | .ok cs   => .inl { visited := c :: s.visited, stack := cs ++ stack }
      | .error e => .inr ((c :: s.visited).reverse, .error e)

end Walk

structure Climb where
  seen : List Int := []
  names : List String := []
  node : Command

def Climb.round (t : Tree) (s : Climb) : Climb ⊕ Except TreeError (List String) :=
  match s.node.parent with
  | none   => .inr (.ok s.names)
  | some p =>
    if s.node.index ∈ s.seen then .inr (.ok s.names)
    else
      match t.node p with
      | .ok d    =>
        .inl { seen := s.node.index :: s.seen, names := s.node.name :: s.names, node := d }
      | .error e => .inr (.error e)

-- A command that the check of a parent chain has come to.
structure Chain where
  seen : List Int := []
  node : Command

-- Ends with whether the chain is broken.
def Chain.round (t : Tree) (s : Chain) : Chain ⊕ Bool :=
  match s.node.parent with
  | none   => .inr false
  | some p =>
    if s.node.index ∈ s.seen ∨ p < 0 then .inr true
    else
      match t.nodes[p.toNat]? with
      | some d => .inl { seen := s.node.index :: s.seen, node := d }
      | none   => .inr true

-- The search for the commands around a command. Places are remembered here, and not indices.
structure Outward where
  seen : List Int
  found : List Command := []
  parent : Option Int

def Outward.round (t : Tree) (s : Outward) : Outward ⊕ List Command :=
  match s.parent with
  | none   => .inr s.found
  | some p =>
    if p ∈ s.seen ∨ p < 0 then .inr s.found
    else
      match t.nodes[p.toNat]? with
      | some d => .inl { seen := p :: s.seen, found := s.found ++ [d], parent := d.parent }
      | none   => .inr s.found

section Walk

variable {s s' : Walk} {r : List Command × Except TreeError Unit} {n : Nat}

theorem mem_nodes_of_mem_childrenOf {cs : List Command} (h : t.childrenOf c = .ok cs)
    (hd : d ∈ cs) : d ∈ t.nodes :=
  have ⟨_, _, hn⟩ := (mem_childrenOf_iff h).mp hd
  mem_nodes_of_node hn

namespace Walk

theorem again_cases (h : s.round t = .inl s') : ∃ c stack, s.stack = c :: stack ∧
    (c.index ∈ s.seen ∧ s' = { s with stack } ∨
      c.index ∉ s.seen ∧ ∃ cs, t.childrenOf c = .ok cs ∧
        s' = { visited := c :: s.visited, stack := cs ++ stack }) := by
  unfold round at h
  split at h
  case h_1 => cases h
  case h_2 c stack hst =>
    refine ⟨c, stack, hst, ?_⟩
    split at h
    case isTrue hs => exact .inl ⟨hs, (Sum.inl.inj h).symm⟩
    case isFalse hs =>
      split at h
      case h_1 cs hcs => exact .inr ⟨hs, cs, hcs, (Sum.inl.inj h).symm⟩
      case h_2        => cases h

theorem last_cases (h : s.round t = .inr r) :
    s.stack = [] ∧ r = (s.visited.reverse, .ok ()) ∨
      ∃ c stack e, s.stack = c :: stack ∧ c.index ∉ s.seen ∧ t.childrenOf c = .error e ∧
        r = ((c :: s.visited).reverse, .error e) := by
  unfold round at h
  split at h
  case h_1 hst => exact .inl ⟨hst, (Sum.inr.inj h).symm⟩
  case h_2 c stack hst =>
    split at h
    case isTrue => cases h
    case isFalse hs =>
      split at h
      case h_1       => cases h
      case h_2 e hcs => exact .inr ⟨c, stack, e, hst, hs, hcs, (Sum.inr.inj h).symm⟩

-- What is ahead is in the tree, and what is behind has its index for itself.
structure Sound (t : Tree) (s : Walk) : Prop where
  stack : ∀ c ∈ s.stack, c ∈ t.nodes
  nodup : s.seen.Nodup

def size (t : Tree) (s : Walk) : Nat :=
  s.stack.length + entriesAhead s.seen t.nodes

namespace Sound

theorem again (h : s.Sound t) (hr : s.round t = .inl s') : s'.Sound t ∧ s'.size t < s.size t := by
  have ⟨c, stack, hst, hr⟩ := again_cases hr
  have ⟨hc, hstack⟩ := List.forall_mem_cons.mp (hst ▸ h.stack)
  cases hr
  case inl hr =>
    obtain ⟨hs, rfl⟩ := hr
    exact ⟨⟨hstack, h.nodup⟩, by simp [size, seen, hst]⟩
  case inr hr =>
    obtain ⟨hs, cs, hcs, rfl⟩ := hr
    refine ⟨⟨?_, List.nodup_cons.mpr ⟨hs, h.nodup⟩⟩, ?_⟩
    case refine_1 =>
      exact List.forall_mem_append.mpr ⟨fun d hd => mem_nodes_of_mem_childrenOf hcs hd, hstack⟩
    case refine_2 =>
      have hlen : cs.length = c.children.length := length_of_mapM_eq_ok hcs
      have hleft : c.children.length + entriesAhead (c.index :: s.seen) t.nodes ≤ _ :=
        entriesAhead_visit hc hs
      have hseen : seen { visited := c :: s.visited, stack := cs ++ stack } = c.index :: s.seen :=
        rfl
      rw [size, size, hseen, hst, List.length_append, List.length_cons]
      omega

theorem last (h : s.Sound t) (hr : s.round t = .inr r) : (r.1.map (·.index)).Nodup := by
  cases last_cases hr
  case inl hr =>
    obtain ⟨_, rfl⟩ := hr
    rw [List.map_reverse]
    exact List.nodup_reverse.mpr h.nodup
  case inr hr =>
    obtain ⟨c, _, _, _, hs, _, rfl⟩ := hr
    rw [List.map_reverse]
    exact List.nodup_reverse.mpr (List.nodup_cons.mpr ⟨hs, h.nodup⟩)

-- The bound is not reached.
theorem go_eq (hh : Halts (Walk.round t) n s r) (h : s.Sound t) {m : Nat} (hm : s.size t ≤ m) :
    ∃ cs, r.1 = s.visited.reverse ++ cs ∧ walk.go t m s.seen s.stack = r.2.map fun _ => cs := by
  induction hh generalizing m
  case last s r hr =>
    cases last_cases hr
    case inl hr =>
      obtain ⟨hst, rfl⟩ := hr
      rw [hst]
      cases m
      case zero => exact ⟨[], by simp, rfl⟩
      case succ => exact ⟨[], by simp, rfl⟩
    case inr hr =>
      obtain ⟨c, stack, e, hst, hs, hcs, rfl⟩ := hr
      refine ⟨[c], by simp, ?_⟩
      rw [size, hst, List.length_cons] at hm
      cases m
      case zero => omega
      case succ m => simp [hst, walk.go, hs, hcs]; rfl
  case again s s' n r hr hh hi =>
    obtain ⟨h', hlt⟩ := h.again hr
    cases m
    case zero => omega
    case succ m =>
      obtain ⟨cs, hys, hgo⟩ := hi h' (by omega : _ ≤ m)
      obtain ⟨c, stack, hst, hr⟩ := again_cases hr
      rw [hst]
      cases hr
      case inl hr =>
        obtain ⟨hs, rfl⟩ := hr
        have hgo : walk.go t m s.seen stack = _ := hgo
        exact ⟨cs, hys, by simpa [walk.go, hs] using hgo⟩
      case inr hr =>
        obtain ⟨hs, ds, hds, rfl⟩ := hr
        refine ⟨c :: cs, by simpa using hys, ?_⟩
        have hgo : walk.go t m (c.index :: s.seen) (ds ++ stack) = _ := hgo
        simp only [walk.go, List.contains_eq_mem, hs, decide_false, Bool.false_eq_true, if_false,
          hds, ok_bind, hgo]
        cases r.2 <;> rfl

end Sound

end Walk

-- The walk of any tree with a root.
theorem walk_halts (hr : t.root = .ok c) : ∃ n ≤ (t.nodes.flatMap (·.children)).length + 2,
    ∃ ys out, Halts (Walk.round t) n { stack := [c] } (ys, out) ∧ (ys.map (·.index)).Nodup ∧
      t.walk = out.map fun _ => ys := by
  have h : Walk.Sound t { stack := [c] } :=
    ⟨fun d hd => List.mem_singleton.mp hd ▸ mem_nodes_of_node hr, .nil⟩
  have hsize : Walk.size t { stack := [c] } = 1 + (t.nodes.flatMap (·.children)).length := by
    simp [Walk.size, Walk.seen, entriesAhead]
  obtain ⟨n, hn, ⟨ys, out⟩, hh⟩ := Halts.of_measure (Walk.size t) Walk.Sound.again h
  have hd := hh.kept (fun h hr => (Walk.Sound.again h hr).1) Walk.Sound.last h
  obtain ⟨cs, rfl, hgo⟩ := h.go_eq hh (Nat.le_of_eq hsize)
  refine ⟨n, by omega, _, out, hh, hd, ?_⟩
  rw [walk, hr, ok_bind]
  exact hgo

end Walk

section Climb

variable {s s' : Climb} {r : Except TreeError (List String)} {n m : Nat} {range : List Int}

namespace Climb

theorem again_cases (h : s.round t = .inl s') : s.node.index ∉ s.seen ∧ ∃ p d,
    s.node.parent = some p ∧ t.node p = .ok d ∧
      s' = { seen := s.node.index :: s.seen, names := s.node.name :: s.names, node := d } := by
  unfold round at h
  split at h
  case h_1 => cases h
  case h_2 p hp =>
    split at h
    case isTrue => cases h
    case isFalse hs =>
      split at h
      case h_1 d hd => exact ⟨hs, p, d, hp, hd, (Sum.inl.inj h).symm⟩
      case h_2      => cases h

theorem go_succ (m : Nat) (s : Climb) : path.go t (m + 1) s.seen s.node s.names =
    (s.round t).elim (fun s => path.go t m s.seen s.node s.names) id := by
  cases hp : s.node.parent
  case none => simp [round, path.go, hp]
  case some p =>
    by_cases hs : s.node.index ∈ s.seen
    case pos => simp [round, path.go, hp, hs]
    case neg =>
      cases hd : t.node p <;> simp [round, path.go, hp, hs, hd]
      case error => rfl

end Climb

-- The path of any command, whether it is in the tree or not.
theorem path_halts (t : Tree) (c : Command) :
    ∃ n ≤ t.nodes.length + 2, Halts (Climb.round t) n { node := c } (t.path c) := by
  have again {s s' : Climb} (h : s.node.index ∈ c.index :: t.nodes.map (·.index))
      (hr : s.round t = .inl s') : s'.node.index ∈ c.index :: t.nodes.map (·.index) ∧
        ∃ i ∈ c.index :: t.nodes.map (·.index), i ∉ s.seen ∧ s'.seen = i :: s.seen := by
    obtain ⟨hs, p, d, _, hd, rfl⟩ := Climb.again_cases hr
    exact ⟨List.mem_cons_of_mem _ (List.mem_map_of_mem (mem_nodes_of_node hd)), _, h, hs, rfl⟩
  have ⟨n, hn, r, hh⟩ := Halts.of_seen Climb.seen again (s := { node := c }) List.mem_cons_self
    ⟨.nil, by simp⟩
  have hn : n ≤ t.nodes.length + 2 := by simpa using hn
  have hb : t.path c = r :=
    hh.bounded (f := fun m (s : Climb) => path.go t m s.seen s.node s.names) Climb.go_succ hn
  exact ⟨n, hn, hb ▸ hh⟩

end Climb

section Chain

variable {s s' : Chain}

namespace Chain

theorem again_cases (h : s.round t = .inl s') : s.node.index ∉ s.seen ∧ ∃ d ∈ t.nodes,
    s' = { seen := s.node.index :: s.seen, node := d } := by
  unfold round at h
  split at h
  case h_1 => cases h
  case h_2 p hp =>
    split at h
    case isTrue => cases h
    case isFalse hs =>
      split at h
      case h_1 d hd => exact ⟨(not_or.mp hs).1, d, List.mem_of_getElem? hd, (Sum.inl.inj h).symm⟩
      case h_2      => cases h

theorem go_succ (m : Nat) (s : Chain) : isBrokenChain.go t (m + 1) s.seen s.node =
    (s.round t).elim (fun s => isBrokenChain.go t m s.seen s.node) id := by
  cases hp : s.node.parent
  case none => simp [round, isBrokenChain.go, hp]
  case some p =>
    by_cases hs : s.node.index ∈ s.seen ∨ p < 0
    case pos => simp [round, isBrokenChain.go, hp, hs]
    case neg => cases hd : t.nodes[p.toNat]? <;> simp [round, isBrokenChain.go, hp, hs, hd]

end Chain

theorem isBrokenChain_halts (hc : c ∈ t.nodes) : ∃ n ≤ t.nodes.length + 1,
    Halts (Chain.round t) n { node := c } (t.isBrokenChain c) := by
  have again {s s' : Chain} (h : s.node ∈ t.nodes) (hr : s.round t = .inl s') :
      s'.node ∈ t.nodes ∧ ∃ i ∈ t.nodes.map (·.index), i ∉ s.seen ∧ s'.seen = i :: s.seen := by
    obtain ⟨hs, d, hd, rfl⟩ := Chain.again_cases hr
    exact ⟨hd, _, List.mem_map_of_mem h, hs, rfl⟩
  have ⟨n, hn, r, hh⟩ := Halts.of_seen Chain.seen again (s := { node := c }) hc ⟨.nil, by simp⟩
  have hn : n ≤ t.nodes.length + 1 := by simpa using hn
  have hb : t.isBrokenChain c = r :=
    hh.bounded (f := fun m (s : Chain) => isBrokenChain.go t m s.seen s.node) Chain.go_succ hn
  exact ⟨n, hn, hb ▸ hh⟩

end Chain

section Outward

variable {s s' : Outward}

namespace Outward

theorem again_cases (h : s.round t = .inl s') : ∃ p ∉ s.seen, 0 ≤ p ∧ p.toNat < t.nodes.length ∧
    s'.seen = p :: s.seen := by
  unfold round at h
  split at h
  case h_1 => cases h
  case h_2 p hp =>
    split at h
    case isTrue => cases h
    case isFalse hs =>
      have ⟨hs, hp⟩ := not_or.mp hs
      split at h
      case h_2      => cases h
      case h_1 d hd =>
        have ⟨hlt, _⟩ := List.getElem?_eq_some_iff.mp hd
        cases h
        exact ⟨p, hs, Int.not_lt.mp hp, hlt, rfl⟩

theorem go_succ (m : Nat) (s : Outward) : s.found ++ enclosing.go t (m + 1) s.seen s.parent =
    (s.round t).elim (fun s => s.found ++ enclosing.go t m s.seen s.parent) id := by
  cases hp : s.parent
  case none => simp [round, enclosing.go, hp]
  case some p =>
    by_cases hs : p ∈ s.seen ∨ p < 0
    case pos => simp [round, enclosing.go, hp, hs]
    case neg => cases hd : t.nodes[p.toNat]? <;> simp [round, enclosing.go, hp, hs, hd]

end Outward

theorem enclosing_halts (t : Tree) (c : Command) : ∃ n ≤ t.nodes.length + 1,
    Halts (Outward.round t) n { seen := [c.index], parent := c.parent } (t.enclosing c) := by
  -- The index of the command itself need not be a place.
  let range : List Int := c.index :: (List.range t.nodes.length).map (↑)
  have again {s s' : Outward} (_ : True) (hr : s.round t = .inl s') :
      True ∧ ∃ i ∈ range, i ∉ s.seen ∧ s'.seen = i :: s.seen := by
    obtain ⟨p, hs, hp, hlt, he⟩ := Outward.again_cases hr
    refine ⟨trivial, p, List.mem_cons_of_mem _ (List.mem_map.mpr ⟨p.toNat, ?_, ?_⟩), hs, he⟩
    case refine_1 => exact List.mem_range.mpr hlt
    case refine_2 => exact Int.toNat_of_nonneg hp
  have ⟨n, hn, r, hh⟩ := Halts.of_seen Outward.seen again
    (s := { seen := [c.index], parent := c.parent }) trivial ⟨by simp, by simp [range]⟩
  have hn : n ≤ t.nodes.length + 1 := by simpa [range] using hn
  have hb : t.enclosing c = r :=
    hh.bounded (f := fun m (s : Outward) => s.found ++ enclosing.go t m s.seen s.parent)
      Outward.go_succ hn
  exact ⟨n, hn, hb ▸ hh⟩

end Outward

-- A result, or the error that an index leads nowhere.
inductive Answered : Except TreeError α → Prop
  | ok (a : α) : Answered (.ok a)
  | noNode (i : Int) : Answered (.error (.noNode i))

section Answered

variable {α β : Type}

theorem Answered.bind {x : Except TreeError α} {f : α → Except TreeError β} (hx : Answered x)
    (hf : ∀ a, Answered (f a)) : Answered (x >>= f) := by
  cases hx
  case ok a     => exact hf a
  case noNode i => exact .noNode i

theorem Answered.mapM {f : α → Except TreeError β} (h : ∀ a, Answered (f a)) (as : List α) :
    Answered (as.mapM f) := by
  induction as
  case nil => exact .ok []
  case cons a as hi =>
    rw [List.mapM_cons]
    exact (h a).bind fun b => hi.bind fun bs => .ok (b :: bs)

theorem node_answered (t : Tree) (i : Int) : Answered (t.node i) := by
  unfold node
  split
  case h_2 => exact .noNode i
  case h_1 =>
    split
    case h_1 => exact .ok _
    case h_2 => exact .noNode i

theorem childrenOf_answered (t : Tree) (c : Command) : Answered (t.childrenOf c) :=
  .mapM (fun _ => node_answered t _) c.children

theorem walk_answered (t : Tree) : Answered t.walk := by
  refine (node_answered t 0).bind fun r => ?_
  generalize 1 + (t.nodes.flatMap (·.children)).length = n, ([] : List Int) = seen, [r] = stack
  fun_induction walk.go t n seen stack
  case case1       => exact .ok []
  case case2       => exact .ok []
  case case3 hi    => exact hi
  case case4 hi    => exact (childrenOf_answered t _).bind fun cs => (hi cs).bind fun _ => .ok _

theorem path_answered (t : Tree) (c : Command) : Answered (t.path c) := by
  unfold path
  generalize t.nodes.length + 2 = n, ([] : List Int) = seen, ([] : List String) = names
  fun_induction path.go t n seen c names
  case case1    => exact .ok _
  case case2    => exact .ok _
  case case3    => exact .ok _
  case case4 hi => exact (node_answered t _).bind hi

theorem label_answered (t : Tree) (c : Command) : Answered (t.label c) := by
  refine (path_answered t c).bind fun names => ?_
  cases names <;> exact .ok _

theorem structureFindings_answered (t : Tree) : Answered t.structureFindings :=
  (node_answered t 0).bind fun _ => .ok _

theorem shadowFindings_answered (t : Tree) (c : Command) : Answered (t.shadowFindings c) := by
  refine .bind (.mapM (fun p => ?_) c.params) fun _ => .ok _
  dsimp only
  split
  case h_1 => exact .ok _
  case h_2 => exact (label_answered t _).bind fun _ => (label_answered t _).bind fun _ => .ok _

theorem commandFindings_answered (t : Tree) (c : Command) : Answered (t.commandFindings c) :=
  (label_answered t c).bind fun _ => (shadowFindings_answered t c).bind fun _ =>
    ((childrenOf_answered t c).bind fun _ => .ok _).bind fun _ => .ok _

theorem validate_answered (t : Tree) : Answered t.validate :=
  ((structureFindings_answered t).bind fun _ => (walk_answered t).bind fun cs =>
    (Answered.mapM (commandFindings_answered t) cs).bind fun _ => .ok _).bind fun _ => .ok _

end Answered

-- All loops over a tree with a root end, and what they lead to is a result or the error that an
-- index leads nowhere. Up to such an error, a walk visits no two commands with one index.
theorem traversals_end (t : Tree) (h : t.nodes ≠ []) :
    (∃ r, t.root = .ok r ∧ ∃ n ≤ (t.nodes.flatMap (·.children)).length + 2, ∃ ys out,
      Halts (Walk.round t) n { stack := [r] } (ys, out) ∧ (ys.map (·.index)).Nodup ∧
        t.walk = out.map fun _ => ys) ∧
    (∀ c, ∃ n ≤ t.nodes.length + 2, Halts (Climb.round t) n { node := c } (t.path c)) ∧
    (∀ c ∈ t.nodes, ∃ n ≤ t.nodes.length + 1,
      Halts (Chain.round t) n { node := c } (t.isBrokenChain c)) ∧
    (∀ c, ∃ n ≤ t.nodes.length + 1,
      Halts (Outward.round t) n { seen := [c.index], parent := c.parent } (t.enclosing c)) ∧
    Answered t.walk ∧ (∀ c, Answered (t.path c)) ∧ Answered t.structureFindings ∧
    (∀ c, Answered (t.shadowFindings c)) ∧ Answered t.validate := by
  have ⟨r, hr⟩ := exists_root_iff.mpr h
  exact ⟨⟨r, hr, walk_halts hr⟩, path_halts t, fun _ hc => isBrokenChain_halts hc,
    enclosing_halts t, walk_answered t, path_answered t, structureFindings_answered t,
    shadowFindings_answered t, validate_answered t⟩

-- Two commands with one index that are each other's parents, and one of them its own child.
theorem traversals_end_cycle :
    let a : Command :=
      { index := 7, name := "a", parent := some 2, children := [("x", 0), ("a", 1)] }
    let b : Command := { index := 7, name := "b", parent := some 1, children := [("a", 1)] }
    let t : Tree := { nodes := [{ index := 0, children := [("a", 1), ("b", 2), ("c", -1)] }, a, b] }
    t.nodes ≠ [] ∧ (∃ n ≤ 4, Halts (Outward.round t) n { seen := [7], parent := some 2 } [b, a]) ∧
      ∃ r, ∃ n ≤ 8, ∃ ys, Halts (Walk.round t) n { stack := [r] } (ys, .ok ()) ∧
        ys.map (·.index) = [0, 7] := by
  intro a b t
  have h : t.nodes ≠ [] := by decide
  have ⟨⟨r, _, n, hn, ys, out, hh, _, hw⟩, _, _, hout, _⟩ := traversals_end t h
  have henclosing : t.enclosing a = [b, a] := by decide +kernel
  have hwalk : (t.walk.map fun ys => ys.map (·.index)) = .ok [0, 7] := by decide +kernel
  refine ⟨h, henclosing ▸ hout a, r, n, hn, ys, ?_⟩
  rw [hw] at hwalk
  cases out
  case error => cases hwalk
  case ok    => exact ⟨hh, Except.ok.inj hwalk⟩

end Tree

end ShellArgs
