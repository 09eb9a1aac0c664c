import ShellArgs.Proofs.Builder.Run
import ShellArgs.Proofs.Tree.Called

-- While a tree is built, its commands only get more children, and words go on calling the
-- commands that they have called before. Every command can be called by its path, and by the
-- parts of its function's name.

namespace ShellArgs

open Outcome

theorem Text.splitOnDouble_ne_nil (c : Char) (s : List Char) : splitOnDouble c s ≠ [] := by
  have hextend (d : Char) (ss : List (List Char)) : extendFirst d ss ≠ [] := by
    cases ss <;> simp [extendFirst]
  cases s using splitOnDouble.induct c
  case case1         => simp [splitOnDouble]
  case case2         => simp [splitOnDouble]
  case case3 he _    => rw [splitOnDouble, if_pos he]; exact List.cons_ne_nil _ _
  case case4 he _    => rw [splitOnDouble, if_neg he]; exact hextend _ _

namespace Builder

variable {b b' : Builder} {d : Directive} {t : Tree} {c : Command} {i q : Nat}

theorem dropLast_nameParts (function : String) :
    (nameParts function).dropLast ++ [(nameParts function).getLastD ""] = nameParts function := by
  have hne : nameParts function ≠ [] := by simp [nameParts, Text.splitOnDouble_ne_nil]
  rw [List.getLastD_eq_getLast?, List.getLast?_eq_some_getLast hne, Option.getD_some,
    List.dropLast_concat_getLast]

namespace Step

theorem tree_extends (h : Step b d b') : b.tree.Extends b'.tree := by
  cases h
  case refused  => exact .refl _
  case header hr ha _ _ =>
    refine Tree.extends_modify fun c hc => ?_
    cases hr.symm.trans hc
    exact ha
  case pending  => exact .refl _
  case opened   => exact .refl _
  case reopened => exact .refl _
  case passed   => exact .refl _
  case main     => exact Tree.extends_modify fun c _ => ⟨rfl, rfl, rfl, rfl, rfl⟩
  case unnamed  => exact .refl _
  case named    => exact Tree.extends_grown

-- Commands get more children, and do not change otherwise.
theorem getElem?_of_some (s : b.tree.Sound) (h : Step b d b') (hi : i ≠ 0)
    (hc : b.tree.nodes[i]? = some c) :
    ∃ more, b'.tree.nodes[i]? = some { c with children := c.children ++ more } := by
  have hsame : some c = some { c with children := c.children ++ [] } := by simp
  have hmodify (f : Command → Command) : (b.tree.modify 0 f).nodes[i]? = b.tree.nodes[i]? := by
    rw [Tree.getElem?_modify, hc]
    simp [hi.symm]
  cases h
  case refused  => exact ⟨[], hc.trans hsame⟩
  case header   => exact ⟨[], (hmodify _).trans (hc.trans hsame)⟩
  case pending  => exact ⟨[], hc.trans hsame⟩
  case opened   => exact ⟨[], hc.trans hsame⟩
  case reopened => exact ⟨[], hc.trans hsame⟩
  case passed   => exact ⟨[], hc.trans hsame⟩
  case main     => exact ⟨[], (hmodify _).trans (hc.trans hsame)⟩
  case unnamed  => exact ⟨[], hc.trans hsame⟩
  case named q c' _ _ _ _ hf _ =>
    have hgrown := Tree.getElem?_grown_of_some (p := q) (c := c') hc
    by_cases hq : q = i
    case neg => exact ⟨[], by rw [hgrown, Tree.adopted, if_neg hq, ← hsame]⟩
    case pos =>
      subst hq
      refine ⟨[(c'.name, b.tree.nodes.length)], ?_⟩
      rw [hgrown, Tree.adopted, if_pos rfl, Ordered.put_of_not_mem (hf.not_mem_names s hc)]

-- A node that was not there before is the command of a function.
theorem exists_getElem?_or (h : Step b d b') (hc : b'.tree.nodes[i]? = some c) :
    (∃ c', b.tree.nodes[i]? = some c') ∨ (∃ q p ds, b'.tree = b.tree.grown q c ∧
      Leads b.tree d.text q c.name ∧ b.tree.Fresh q c ∧ Bound p d.text c ds) := by
  have hsame (hl : b'.tree.nodes.length = b.tree.nodes.length) : ∃ c', b.tree.nodes[i]? = some c' := by
    have ⟨hi, _⟩ := List.getElem?_eq_some_iff.mp hc
    exact ⟨_, List.getElem?_eq_getElem (hl ▸ hi)⟩
  cases h
  case refused  => exact .inl (hsame rfl)
  case header   => exact .inl (hsame Tree.length_nodes_modify)
  case pending  => exact .inl (hsame rfl)
  case opened   => exact .inl (hsame rfl)
  case reopened => exact .inl (hsame rfl)
  case passed   => exact .inl (hsame rfl)
  case main     => exact .inl (hsame Tree.length_nodes_modify)
  case unnamed  => exact .inl (hsame rfl)
  case named hl hf hb =>
    cases Tree.getElem?_grown hc
    case inl h =>
      have ⟨c', hc', _⟩ := h
      exact .inl ⟨c', hc'⟩
    case inr h =>
      rw [h.2]
      exact .inr ⟨_, _, _, rfl, hl, hf, hb⟩

end Step

-- Every command is called by the parts of its function's name.
def Resolved (t : Tree) : Prop :=
  ∀ {r : Command} {i : Nat} {c : Command}, t.root = .ok r → t.nodes[i]? = some c → i ≠ 0 →
    ∃ function, c.func = some function ∧ t.Called r (nameParts function) c

theorem Leads.called {function : String} {r : Command} (l : Leads t function q c.name) (s : t.Sound)
    (f : t.Fresh q c) (hr : (t.grown q c).root = .ok r) :
    (t.grown q c).Called r (nameParts function) c := by
  have ⟨r₀, e, hroot, he, hd⟩ := l.parent
  have hr₀ := Tree.getElem?_of_node hroot
  have he' := Tree.getElem?_grown_of_some (p := q) (c := c) he
  have hup := (Tree.Called.descend_eq_ok_iff s (List.mem_of_getElem? hr₀) []).mp hd
  have hbelow : (t.grown q c).Below (t.adopted q c.name q e) c :=
    ⟨List.mem_of_getElem? Tree.getElem?_grown_self, by rw [f.parent, Tree.index_adopted, s.index he]⟩
  have := (hup.extend s Tree.extends_grown hr₀ (Tree.getElem?_of_node hr) he he').concat hbelow
    List.mem_cons_self
  rwa [l.name, dropLast_nameParts] at this

theorem Step.resolved (s : b.tree.Sound) (h : Step b d b') (hb : Resolved b.tree) :
    Resolved b'.tree := by
  intro r i c hr hc hi
  cases h.exists_getElem?_or hc
  case inl h' =>
    have ⟨c', hc'⟩ := h'
    have ⟨r', hr', hroot, _⟩ := s.joined.root_eq_ok
    have ⟨function, hf, hcalled⟩ := hb hr' hc' hi
    have ⟨more, hm⟩ := h.getElem?_of_some s hi hc'
    cases hc.symm.trans hm
    exact ⟨function, hf, hcalled.extend s h.tree_extends hroot (Tree.getElem?_of_node hr) hc' hm⟩
  case inr h' =>
    have ⟨q, p, ds, ht, hl, hf, hbound⟩ := h'
    rw [ht] at hr ⊢
    exact ⟨d.text, hbound.func, hl.called s hf hr⟩

-- Whatever comes next, commands keep their places and all that they have, but for more children,
-- and words that call a command call it still. Its path and its function's name do so all the time.
theorem foldlM_feed_resolved (ds : List Directive) (d : Directive) : ∃ b b' r r',
    ds.foldlM feed {} = .ok b ∧ b.feed d = .ok b' ∧
    b.tree.root = .ok r ∧ b'.tree.root = .ok r' ∧
    (∀ (i : Nat) c, b.tree.nodes[i]? = some c → c.isRoot = false →
      ∃ more, b'.tree.nodes[i]? = some { c with children := c.children ++ more }) ∧
    (∀ ws (i : Nat) c, descend b.tree r [] ws = .ok (.ok c) → b.tree.nodes[i]? = some c →
      ∃ c', descend b'.tree r' [] ws = .ok (.ok c') ∧ b'.tree.nodes[i]? = some c') ∧
    ∀ c ∈ b.tree.nodes, c.isRoot = false →
      (∃ path, b.tree.path c = .ok path ∧ descend b.tree r [] path = .ok (.ok c)) ∧
      ∃ function, c.func = some function ∧
        descend b.tree r [] (nameParts function) = .ok (.ok c) := by
  have hempty : Resolved Tree.empty := by
    intro r i c _ hc hi
    obtain ⟨hlt, _⟩ := List.getElem?_eq_some_iff.mp hc
    simp [Tree.empty] at hlt
    contradiction
  obtain ⟨b, hb, s, hresolved⟩ := foldlM_feed (fun _ b => Resolved b.tree) hempty
    (fun s h hp => h.resolved s hp) ds
  obtain ⟨b', hb', h⟩ := feed_step s d
  have s' := h.sound s
  obtain ⟨r, hr, hr₀, hrp⟩ := s.joined.root_eq_ok
  obtain ⟨r', hr', hr₀', _⟩ := s'.joined.root_eq_ok
  have hrm := List.mem_of_getElem? hr₀
  have hne {i : Nat} {c : Command} (hc : b.tree.nodes[i]? = some c) (hroot : c.isRoot = false) :
      i ≠ 0 := by
    rintro rfl
    cases hr₀.symm.trans hc
    simp [Command.isRoot, hrp] at hroot
  refine ⟨b, b', r, r', hb, hb', hr, hr', ?_, ?_, ?_⟩
  case refine_1 => exact fun i c hc hroot => h.getElem?_of_some s (hne hc hroot) hc
  case refine_2 =>
    intro ws i c hd hc
    obtain ⟨c', hc', _⟩ := h.tree_extends i c hc
    have hcalled := (Tree.Called.descend_eq_ok_iff s hrm []).mp hd
    have := hcalled.extend s h.tree_extends hr₀ hr₀' hc hc'
    exact ⟨c', (Tree.Called.descend_eq_ok_iff s' (List.mem_of_getElem? hr₀') []).mpr this, hc'⟩
  case refine_3 =>
    intro c hm hroot
    obtain ⟨i, hc⟩ := List.getElem?_of_mem hm
    obtain ⟨cs, w⟩ := s.exists_way hm
    obtain ⟨function, hf, hcalled⟩ := hresolved hr hc (hne hc hroot)
    refine ⟨⟨_, w.path_eq_ok s.joined, ?_⟩, function, hf, ?_⟩
    case refine_1 => exact (Tree.Called.descend_eq_ok_iff s hrm []).mpr (w.called hr)
    case refine_2 => exact (Tree.Called.descend_eq_ok_iff s hrm []).mpr hcalled

end Builder

end ShellArgs
