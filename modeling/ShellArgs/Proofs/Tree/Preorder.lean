import ShellArgs.Proofs.Tree.References
import ShellArgs.Proofs.Tree.Sound
import ShellArgs.Proofs.Tree.Walk

-- The order of a walk. Each command is followed by all commands below it before anything else
-- comes, and the children of a command come in their own order.

namespace ShellArgs

open Outcome

namespace Tree

-- Some commands and all those below them.
inductive Preorder (t : Tree) : List Command → List Command → Prop
  | nil   : Preorder t [] []
  | visit : Preorder t (t.subcommands c) below → Preorder t cs after →
      Preorder t (c :: cs) (c :: (below ++ after))

variable {t : Tree} {c d e : Command} {cs order : List Command}

namespace Above

-- The first link of a chain.
theorem head (h : t.Above c d) :
    d = c ∨ ∃ p e, c.parent = some p ∧ t.node p = .ok e ∧ t.Above e d := by
  induction h
  case self => exact .inl rfl
  case parent hp hn hi =>
    cases hi
    case inl hi => exact .inr ⟨_, _, hi ▸ hp, hn, .self⟩
    case inr hi =>
      have ⟨q, e, hq, he, ha⟩ := hi
      exact .inr ⟨q, e, hq, he, .parent ha hp hn⟩

-- What is above the same command is one above the other.
theorem or (h : t.Above c d) (h' : t.Above c e) : t.Above d e ∨ t.Above e d := by
  induction h
  case self => exact .inl h'
  case parent hp hn hi =>
    cases hi
    case inr hi => exact .inr (.parent hi hp hn)
    case inl hi =>
      cases hi.head
      case inl he => exact .inr (he ▸ .parent .self hp hn)
      case inr he =>
        have ⟨q, d', hq, hd, ha⟩ := he
        cases hp.symm.trans hq
        cases hn.symm.trans hd
        exact .inl ha

theorem of_below (j : t.Joined) (hc : c ∈ t.nodes) (hb : t.Below c d) : t.Above d c :=
  .parent .self hb.parent (j.node_index hc)

theorem mem_nodes (h : t.Above c d) (hc : c ∈ t.nodes) : d ∈ t.nodes := by
  cases h
  case self         => exact hc
  case parent hn    => exact mem_nodes_of_node hn

end Above

theorem Joined.below_of_parent {p : Int} (j : t.Joined) (hc : c ∈ t.nodes) (hp : c.parent = some p)
    (hn : t.node p = .ok d) : t.Below d c := by
  have ⟨e, he, hb, _⟩ := j.exists_parent hc (by simp [hp])
  cases hp.symm.trans hb.parent
  cases hn.symm.trans (j.node_index he)
  exact hb

theorem Way.above {r : Command} (w : t.Way cs c) (j : t.Joined) (hr : t.root = .ok r) :
    t.Above c r := by
  induction w
  case root h =>
    cases hr.symm.trans h
    exact .self
  case child w hb hi => exact (Above.of_below j w.mem_nodes hb).trans hi

theorem Joined.nodup_subcommands (j : t.Joined) (hc : c ∈ t.nodes) : (t.subcommands c).Nodup := by
  have hname : (t.subcommands c).map (·.name) = c.children.names := by
    rw [subcommands, List.map_filterMap, Ordered.names, ← List.filterMap_eq_map]
    refine List.filterMap_congr fun e he => ?_
    obtain ⟨d, hd, _, _, hn⟩ := j.node_child hc he
    simp [hd, hn]
  exact .of_map _ (hname ▸ j.names hc)

namespace Sound

theorem index_le_of_above (s : t.Sound) (hc : c ∈ t.nodes) (h : t.Above c d) :
    d.index ≤ c.index := by
  induction h
  case self => exact Int.le_refl _
  case parent ha hp hn hi =>
    have := s.index_lt (s.joined.below_of_parent (ha.mem_nodes hc) hp hn)
    omega

-- Neither of two siblings is above the other.
theorem eq_of_above_sibling (s : t.Sound) (hd : d ∈ t.nodes) (hp : c.parent = d.parent)
    (h : t.Above c d) : d = c := by
  cases h.head
  case inl he => exact he
  case inr he =>
    have ⟨p, e, hq, hn, ha⟩ := he
    have := s.index_le_of_above (mem_nodes_of_node hn) ha
    have := s.index_lt (s.joined.below_of_parent hd (hp ▸ hq) hn)
    omega

end Sound

namespace Preorder

theorem sublist (h : t.Preorder cs order) : cs.Sublist order := by
  induction h
  case nil           => exact .slnil
  case visit _ _ _ hi => exact (hi.trans (List.sublist_append_right _ _)).cons_cons _

-- A command stands right before all those below it.
theorem exists_block (h : t.Preorder cs order) (hc : c ∈ order) :
    ∃ front below back, t.Preorder (t.subcommands c) below ∧
      order = front ++ c :: below ++ back := by
  induction h
  case nil => cases hc
  case visit d below cs after hb _ hi hi' =>
    simp only [List.mem_cons, List.mem_append] at hc
    obtain rfl | hc | hc := hc
    case inl => exact ⟨[], below, after, hb, rfl⟩
    case inr.inl =>
      have ⟨front, below', back, hb', he⟩ := hi hc
      exact ⟨d :: front, below', back ++ after, hb', by simp [he]⟩
    case inr.inr =>
      have ⟨front, below', back, hb', he⟩ := hi' hc
      exact ⟨d :: (below ++ front), below', back, hb', by simp [he]⟩

theorem mem_iff (s : t.Sound) (h : t.Preorder cs order) (hcs : ∀ c ∈ cs, c ∈ t.nodes) :
    d ∈ order ↔ d ∈ t.nodes ∧ ∃ c ∈ cs, t.Above d c := by
  induction h
  case nil => simp
  case visit c below cs after hb ha hi hi' =>
    have ⟨hc, hcs⟩ := List.forall_mem_cons.mp hcs
    have hsub : ∀ e ∈ t.subcommands c, e ∈ t.nodes :=
      fun e he => s.joined.mem_of_mem_subcommands hc he
    rw [List.mem_cons, List.mem_append, hi hsub, hi' hcs, List.exists_mem_cons_iff]
    constructor
    case mp =>
      rintro (rfl | ⟨hd, e, he, ha⟩ | ⟨hd, e, he, ha⟩)
      case inl => exact ⟨hc, .inl .self⟩
      case inr.inl =>
        have hb := (s.joined.mem_subcommands_iff hc).mp he
        exact ⟨hd, .inl (ha.trans (.of_below s.joined hc hb))⟩
      case inr.inr => exact ⟨hd, .inr ⟨e, he, ha⟩⟩
    case mpr =>
      rintro ⟨hd, ha | ha⟩
      case inr => exact .inr (.inr ⟨hd, ha⟩)
      case inl =>
        cases ha
        case self => exact .inl rfl
        case parent e _ ha hp hn =>
          have hb := s.joined.below_of_parent (ha.mem_nodes hd) hp hn
          exact .inr (.inl ⟨hd, e, (s.joined.mem_subcommands_iff hc).mpr hb, ha⟩)

-- Nothing stands below two siblings, so that nothing is visited twice.
theorem nodup (s : t.Sound) (h : t.Preorder cs order) (hcs : ∀ c ∈ cs, c ∈ t.nodes)
    (hp : ∀ c ∈ cs, ∀ d ∈ cs, c.parent = d.parent) (hn : cs.Nodup) : order.Nodup := by
  induction h
  case nil => exact hn
  case visit c below cs after hb ha hi hi' =>
    have ⟨hc, hcs⟩ := List.forall_mem_cons.mp hcs
    have ⟨hcn, hn⟩ := List.nodup_cons.mp hn
    have hsub : ∀ e ∈ t.subcommands c, t.Below c e :=
      fun e he => (s.joined.mem_subcommands_iff hc).mp he
    have hbelow {d : Command} (hd : d ∈ below) : d ∈ t.nodes ∧ ∃ e, t.Below c e ∧ t.Above d e := by
      have ⟨hd, e, he, ha⟩ := (hb.mem_iff s fun e he => (hsub e he).mem).mp hd
      exact ⟨hd, e, hsub e he, ha⟩
    have hafter {d : Command} (hd : d ∈ after) : ∃ e ∈ cs, t.Above d e :=
      ((ha.mem_iff s hcs).mp hd).2
    -- A command of the list that is above or below the first one is the first one.
    have hfirst {e : Command} (he : e ∈ cs) (ha : t.Above c e ∨ t.Above e c) : False := by
      have hpe := hp c List.mem_cons_self e (List.mem_cons_of_mem _ he)
      have hec : e = c := by
        cases ha
        case inl ha => exact s.eq_of_above_sibling (hcs e he) hpe ha
        case inr ha => exact (s.eq_of_above_sibling hc hpe.symm ha).symm
      exact hcn (hec ▸ he)
    refine List.nodup_cons.mpr ⟨fun hm => ?_, List.nodup_append.mpr ⟨?_, ?_, ?_⟩⟩
    case refine_1 =>
      cases List.mem_append.mp hm
      case inl hm =>
        have ⟨_, e, hb, ha⟩ := hbelow hm
        have := s.index_le_of_above hc ha
        have := s.index_lt hb
        omega
      case inr hm =>
        have ⟨e, he, ha⟩ := hafter hm
        exact hfirst he (.inl ha)
    case refine_2 =>
      refine hi (fun e he => (hsub e he).mem) (fun d hd e he => ?_) (s.joined.nodup_subcommands hc)
      rw [(hsub d hd).parent, (hsub e he).parent]
    case refine_3 =>
      exact hi' hcs (fun d hd e he => hp d (List.mem_cons_of_mem _ hd) e (List.mem_cons_of_mem _ he)) hn
    case refine_4 =>
      rintro d hd _ hd' rfl
      have ⟨_, e, hb, ha⟩ := hbelow hd
      have ⟨e', he', ha'⟩ := hafter hd'
      exact hfirst he' ((ha.trans (.of_below s.joined hc hb)).or ha')

theorem length_eq (s : t.Sound) (h : t.Preorder cs order) (hcs : ∀ c ∈ cs, c ∈ t.nodes) :
    order.length = cs.length + (order.flatMap (·.children)).length := by
  induction h
  case nil => rfl
  case visit c below cs after hb ha hi hi' =>
    have ⟨hc, hcs⟩ := List.forall_mem_cons.mp hcs
    have hlen : (t.subcommands c).length = c.children.length :=
      length_of_mapM_eq_ok (s.joined.childrenOf_eq_ok hc)
    have := hi fun e he => s.joined.mem_of_mem_subcommands hc he
    have := hi' hcs
    simp only [List.length_cons, List.length_append, List.flatMap_cons, List.flatMap_append]
    omega

-- A walk comes by the commands of its stack in this order, as long as it has not seen any of them.
theorem walk_go (s : t.Sound) (h : t.Preorder cs order) (hcs : ∀ c ∈ cs, c ∈ t.nodes)
    (hn : (order.map (·.index)).Nodup) (n : Nat) (seen : List Int) (stack : List Command)
    (hs : ∀ c ∈ order, c.index ∉ seen) : walk.go t (order.length + n) seen (cs ++ stack) =
      (order ++ ·) <$> walk.go t n ((order.map (·.index)).reverse ++ seen) stack := by
  induction h generalizing n seen stack
  case nil => simp
  case visit c below cs after hb ha hi hi' =>
    have ⟨hc, hcs⟩ := List.forall_mem_cons.mp hcs
    have ⟨hcs', hs⟩ := List.forall_mem_cons.mp hs
    have ⟨hsb, hsa⟩ := List.forall_mem_append.mp hs
    simp only [List.map_cons, List.map_append, List.nodup_cons, List.nodup_append,
      List.mem_append, not_or] at hn
    obtain ⟨⟨hcb, hca⟩, hnb, hna, hdisj⟩ := hn
    have hlen : (c :: (below ++ after)).length + n = below.length + (after.length + n) + 1 := by
      simp only [List.length_cons, List.length_append]
      omega
    have hstep : walk.go t (below.length + (after.length + n) + 1) seen (c :: (cs ++ stack)) =
        (c :: ·) <$> walk.go t (below.length + (after.length + n)) (c.index :: seen)
          (t.subcommands c ++ (cs ++ stack)) := by
      rw [walk.go, if_neg (by simpa using hcs'), s.joined.childrenOf_eq_ok hc, ok_bind,
        map_eq_pure_bind]
    have hbelow := hi (fun e he => s.joined.mem_of_mem_subcommands hc he) hnb (after.length + n)
      (c.index :: seen) (cs ++ stack) fun e he hm => by
        cases List.mem_cons.mp hm
        case inl hm => exact hcb (hm ▸ List.mem_map_of_mem he)
        case inr hm => exact hsb e he hm
    have hafter := hi' hcs hna n ((below.map (·.index)).reverse ++ c.index :: seen) stack
      fun e he hm => by
        simp only [List.mem_append, List.mem_reverse, List.mem_cons] at hm
        obtain hm | hm | hm := hm
        case inl     => exact hdisj _ hm _ (List.mem_map_of_mem he) rfl
        case inr.inl => exact hca (hm ▸ List.mem_map_of_mem he)
        case inr.inr => exact hsa e he hm
    rw [hlen, List.cons_append, hstep, hbelow, hafter]
    simp

end Preorder

-- Children stand behind their parents, so that there is always less of the tree ahead.
theorem Sound.exists_preorder (s : t.Sound) (n : Nat) (cs : List Command)
    (hcs : ∀ c ∈ cs, c ∈ t.nodes ∧ t.nodes.length ≤ c.index.toNat + n) :
    ∃ order, t.Preorder cs order := by
  induction n generalizing cs
  case zero =>
    cases cs
    case nil => exact ⟨[], .nil⟩
    case cons c cs =>
      have ⟨hc, hl⟩ := hcs c List.mem_cons_self
      have ⟨hlt, _⟩ := List.getElem?_eq_some_iff.mp (s.joined.getElem?_index hc)
      omega
  case succ n hi =>
    induction cs
    case nil => exact ⟨[], .nil⟩
    case cons c cs hi' =>
      have ⟨⟨hc, hl⟩, hcs⟩ := List.forall_mem_cons.mp hcs
      have ⟨after, ha⟩ := hi' hcs
      have ⟨below, hb⟩ := hi (t.subcommands c) fun d hd => by
        have hbd := (s.joined.mem_subcommands_iff hc).mp hd
        have := s.index_lt hbd
        have := s.joined.index_nonneg hc
        exact ⟨hbd.mem, by omega⟩
      exact ⟨_, .visit hb ha⟩

-- A walk comes by all commands, each one once. Those below a command follow it without a gap, its
-- own children in their order.
theorem Sound.walk_eq_ok (s : t.Sound) : ∃ order, t.walk = .ok order ∧ order.Perm t.nodes ∧
    ∀ c ∈ t.nodes, ∃ front below back children, order = front ++ c :: below ++ back ∧
      (∀ d, d ∈ c :: below ↔ d ∈ t.nodes ∧ t.Above d c) ∧
      t.childrenOf c = .ok children ∧ children.Sublist below := by
  obtain ⟨r, hr, hr₀, hp⟩ := s.joined.root_eq_ok
  have hrm := List.mem_of_getElem? hr₀
  have hroot : ∀ c ∈ [r], c ∈ t.nodes := List.forall_mem_singleton.mpr hrm
  obtain ⟨order, ho⟩ := s.exists_preorder t.nodes.length [r] fun c hc => ⟨hroot c hc, by omega⟩
  have hmem : ∀ d, d ∈ order ↔ d ∈ t.nodes := by
    intro d
    rw [ho.mem_iff s hroot]
    refine ⟨And.left, fun hd => ⟨hd, r, List.mem_cons_self, ?_⟩⟩
    obtain ⟨_, w⟩ := s.exists_way hd
    exact w.above s.joined hr
  have hnodup : order.Nodup := ho.nodup s hroot (by simp) (by simp)
  have hperm := (List.perm_ext_iff_of_nodup hnodup s.joined.nodup).mpr hmem
  refine ⟨order, ?_, hperm, fun c hc => ?_⟩
  case refine_1 =>
    have hindex : (order.map (·.index)).Nodup :=
      hnodup.map_on fun c hc d hd => s.joined.eq_of_index_eq ((hmem c).mp hc) ((hmem d).mp hd)
    have hfuel : 1 + (t.nodes.flatMap (·.children)).length = order.length + 0 := by
      rw [ho.length_eq s hroot, (hperm.flatMap_right _).length_eq]
      rfl
    have := ho.walk_go s hroot hindex 0 [] [] (by simp)
    rw [walk, hr, ok_bind, hfuel]
    simpa [walk.go] using this
  case refine_2 =>
    obtain ⟨front, below, back, hb, he⟩ := ho.exists_block ((hmem c).mpr hc)
    refine ⟨front, below, back, _, he, fun d => ?_, s.joined.childrenOf_eq_ok hc, hb.sublist⟩
    have := (Preorder.visit hb .nil).mem_iff (d := d) s (List.forall_mem_singleton.mpr hc)
    simpa using this

end Tree

end ShellArgs
