import ShellArgs.Proofs.Tree.Sound

namespace ShellArgs

open Outcome

-- What the structure of a tree rests on is the same in both commands.
structure Command.Alike (c d : Command) : Prop where
  index    : d.index = c.index
  name     : d.name = c.name
  aliases  : d.aliases = c.aliases
  children : d.children = c.children
  parent   : d.parent = c.parent

theorem Command.Alike.refl (c : Command) : c.Alike c :=
  ⟨rfl, rfl, rfl, rfl, rfl⟩

namespace Tree

variable {t : Tree} {c d : Command} {i p : Nat}

theorem getElem?_modify {f : Command → Command} :
    (t.modify p f).nodes[i]? = (fun c => if p = i then f c else c) <$> t.nodes[i]? := by
  simp [modify, List.getElem?_modify]

-- Only the node at the place counts.
theorem modify_eq_modify_const (h : t.nodes[p]? = some c) (f : Command → Command) :
    t.modify p f = t.modify p fun _ => f c := by
  simp only [modify]
  congr 1
  apply List.ext_getElem?
  intro i
  rw [List.getElem?_modify, List.getElem?_modify]
  by_cases hp : p = i
  case pos => simp [← hp, h]
  case neg => simp [hp]

-- What is so for all commands stays so as a tree grows.
theorem forall_mem_modify {P : Command → Prop} (h : ∀ c ∈ t.nodes, P c)
    {f : Command → Command}
    (hf : ∀ c, P c → P (f c)) (p : Nat) : ∀ c ∈ (t.modify p f).nodes, P c := by
  intro d hd
  obtain ⟨i, hi⟩ := List.getElem?_of_mem hd
  rw [Tree.modify, List.getElem?_modify, Option.map_eq_map, Option.map_eq_some_iff] at hi
  obtain ⟨c, hc, rfl⟩ := hi
  have hc := h c (List.mem_of_getElem? hc)
  split
  case isTrue  => exact hf c hc
  case isFalse => exact hc

theorem modify_self (h : t.nodes[p]? = some c) : (t.modify p fun _ => c) = t := by
  have := modify_eq_modify_const h id
  rw [id_eq] at this
  rw [← this, modify, List.modify_id]

section Modify

variable {f : Command → Command} (hf : ∀ c, t.nodes[p]? = some c → c.Alike (f c))

include hf

-- What is at a place of the tree afterwards is like what was there before.
theorem alike_of_getElem?_modify (h : (t.modify p f).nodes[i]? = some d) :
    ∃ c : Command, t.nodes[i]? = some c ∧ c.Alike d := by
  rw [getElem?_modify, Option.map_eq_map, Option.map_eq_some_iff] at h
  have ⟨c, hc, hd⟩ := h
  subst hd
  refine ⟨c, hc, ?_⟩
  by_cases hp : p = i
  case pos => simpa [hp] using hf c (hp ▸ hc)
  case neg => simpa [hp] using Command.Alike.refl c

theorem exists_getElem?_modify (h : t.nodes[i]? = some c) :
    ∃ d, (t.modify p f).nodes[i]? = some d ∧ c.Alike d := by
  have hd : (t.modify p f).nodes[i]? = some (if p = i then f c else c) := by
    rw [getElem?_modify, h]
    rfl
  have ⟨c', hc', ha⟩ := alike_of_getElem?_modify hf hd
  cases h.symm.trans hc'
  exact ⟨_, hd, ha⟩

theorem alike_of_mem_modify (h : d ∈ (t.modify p f).nodes) : ∃ c ∈ t.nodes, c.Alike d := by
  have ⟨i, hi⟩ := List.getElem?_of_mem h
  have ⟨c, hc, ha⟩ := alike_of_getElem?_modify hf hi
  exact ⟨c, List.mem_of_getElem? hc, ha⟩

-- Replaces contents that the structure does not rest on.
theorem Sound.modify (s : t.Sound) : (t.modify p f).Sound := by
  have hindex : ∀ {i : Nat} {d : Command}, (t.modify p f).nodes[i]? = some d → d.index = i := by
    intro i d hd
    have ⟨c, hc, h⟩ := alike_of_getElem?_modify hf hd
    rw [h.index, s.index hc]
  constructor
  case root =>
    have ⟨r, hr, hp⟩ := s.root
    have ⟨d, hd, h⟩ := exists_getElem?_modify hf hr
    exact ⟨d, hd, by rw [h.parent, hp]⟩
  case index => exact hindex
  case parent =>
    intro i d hd hi
    have ⟨c, hc, h⟩ := alike_of_getElem?_modify hf hd
    have ⟨q, e, hlt, he, hp, hg⟩ := s.parent hc hi
    have ⟨e', he', h'⟩ := exists_getElem?_modify hf he
    exact ⟨q, e', hlt, he', by rw [h.parent, hp], by rw [h'.children, h.name, hg]⟩
  case child =>
    intro q d n j hd hm
    have ⟨c, hc, h⟩ := alike_of_getElem?_modify hf hd
    have ⟨i, e, hj, he, hp, hn⟩ := s.child hc (h.children ▸ hm)
    have ⟨e', he', h'⟩ := exists_getElem?_modify hf he
    exact ⟨i, e', hj, he', by rw [h'.parent, hp], by rw [h'.name, hn]⟩
  case names =>
    intro d hd
    have ⟨c, hc, h⟩ := alike_of_mem_modify hf hd
    exact h.children ▸ s.names hc
  case aliases =>
    intro d hd
    have ⟨c, hc, h⟩ := alike_of_mem_modify hf hd
    exact h.aliases ▸ s.aliases hc
  case distinct =>
    intro d e w hd he hp hwd hwe
    have ⟨i, hi⟩ := List.getElem?_of_mem hd
    have ⟨j, hj⟩ := List.getElem?_of_mem he
    have ⟨c, hc, h⟩ := alike_of_mem_modify hf hd
    have ⟨c', hc', h'⟩ := alike_of_mem_modify hf he
    have : c = c' := s.distinct hc hc' (by rw [← h.parent, hp, h'.parent])
      (by simpa [Command.callNames, h.name, h.aliases] using hwd)
      (by simpa [Command.callNames, h'.name, h'.aliases] using hwe)
    have hij : i = j := by
      have : (i : Int) = j := by rw [← hindex hi, ← hindex hj, h.index, h'.index, this]
      omega
    subst hij
    exact Option.some.inj (hi.symm.trans hj)

end Modify

-- A node after a command was put below the one at place `p`: only that one changes, by an
-- entry for its new child.
def adopted (t : Tree) (p : Nat) (name : String) (i : Nat) (d : Command) : Command :=
  if p = i then { d with children := d.children.put name t.nodes.length } else d

section Adopted

variable {n : String}

@[simp] theorem index_adopted : (t.adopted p n i d).index = d.index := by
  unfold adopted; split <;> rfl

@[simp] theorem name_adopted : (t.adopted p n i d).name = d.name := by
  unfold adopted; split <;> rfl

@[simp] theorem aliases_adopted : (t.adopted p n i d).aliases = d.aliases := by
  unfold adopted; split <;> rfl

@[simp] theorem parent_adopted : (t.adopted p n i d).parent = d.parent := by
  unfold adopted; split <;> rfl

@[simp] theorem line_adopted : (t.adopted p n i d).line = d.line := by
  unfold adopted; split <;> rfl

@[simp] theorem params_adopted : (t.adopted p n i d).params = d.params := by
  unfold adopted; split <;> rfl

@[simp] theorem before_adopted : (t.adopted p n i d).before = d.before := by
  unfold adopted; split <;> rfl

@[simp] theorem after_adopted : (t.adopted p n i d).after = d.after := by
  unfold adopted; split <;> rfl

@[simp] theorem callNames_adopted : (t.adopted p n i d).callNames = d.callNames := by
  simp [Command.callNames]

theorem children_adopted_self :
    (t.adopted p n p d).children = d.children.put n t.nodes.length := by
  simp [adopted]

theorem children_adopted_of_ne (h : p ≠ i) : (t.adopted p n i d).children = d.children := by
  simp [adopted, h]

end Adopted

-- The tree with a new command below the one at a place.
def grown (t : Tree) (p : Nat) (c : Command) : Tree where
  nodes := (t.modify p (t.adopted p c.name p)).nodes ++ [c]

theorem forall_mem_grown {P : Command → Prop} (h : ∀ c ∈ t.nodes, P c)
    (hp : ∀ c cs, P c → P { c with children := cs }) (hc : P c) (p : Nat) :
    ∀ e ∈ (t.grown p c).nodes, P e := by
  have hadopted (d : Command) (hd : P d) : P (t.adopted p c.name p d) := by
    unfold adopted
    split
    case isTrue  => exact hp d _ hd
    case isFalse => exact hd
  exact List.forall_mem_append.mpr ⟨forall_mem_modify h hadopted p, List.forall_mem_singleton.mpr hc⟩

theorem length_nodes_grown : (t.grown p c).nodes.length = t.nodes.length + 1 := by
  simp [grown]

theorem getElem?_grown_self : (t.grown p c).nodes[t.nodes.length]? = some c := by
  simp [grown]

-- Nodes that there were are still there.
theorem getElem?_grown_of_some (h : t.nodes[i]? = some d) :
    (t.grown p c).nodes[i]? = some (t.adopted p c.name i d) := by
  have ⟨hi, _⟩ := List.getElem?_eq_some_iff.mp h
  rw [grown, List.getElem?_append_left (by simpa using hi), getElem?_modify, h]
  by_cases hp : p = i
  case pos => simp [hp]
  case neg => simp [hp, adopted]

-- The only other node is the new one.
theorem getElem?_grown {e : Command} (h : (t.grown p c).nodes[i]? = some e) :
    (∃ d, t.nodes[i]? = some d ∧ e = t.adopted p c.name i d) ∨ (i = t.nodes.length ∧ e = c) := by
  have ⟨hi, _⟩ := List.getElem?_eq_some_iff.mp h
  rw [length_nodes_grown] at hi
  by_cases hn : i = t.nodes.length
  case pos =>
    subst hn
    exact .inr ⟨rfl, (Option.some.inj (getElem?_grown_self.symm.trans h)).symm⟩
  case neg =>
    have hd := List.getElem?_eq_getElem (show i < t.nodes.length by omega)
    have he := (getElem?_grown_of_some hd).symm.trans h
    exact .inl ⟨_, hd, (Option.some.inj he).symm⟩

-- Siblings of the new command are siblings in the grown tree.
theorem not_mem_callNames_of_grown {e : Command} {w : String}
    (h : ∀ d, (t.grown p c).Below (t.adopted p c.name p e) d → w ∉ d.callNames)
    (he : e.index = p) (hd : d ∈ t.nodes) (hp : d.parent = some (p : Int)) : w ∉ d.callNames := by
  have ⟨i, hi⟩ := List.getElem?_of_mem hd
  have hm := List.mem_of_getElem? (getElem?_grown_of_some (p := p) (c := c) hi)
  simpa using h _ ⟨hm, by rw [parent_adopted, index_adopted, hp, he]⟩

theorem addChild_eq_ok (h : t.nodes[p]? = some d) (hd : d.index = p) :
    t.addChild p c =
      .ok (t.grown p { c with index := t.nodes.length, parent := some (p : Int) }, t.nodes.length) := by
  have ⟨hp, _⟩ := List.getElem?_eq_some_iff.mp h
  have hplace : t.place? p = some p := (place?_eq_some_iff_of_nonneg (by omega)).mpr ⟨rfl, hp⟩
  have hadopt : t.adopted p c.name p =
      fun d => { d with children := d.children.put c.name t.nodes.length } := by
    funext d
    simp [adopted]
  simp [addChild, place, hplace, node_eq_ok h, hd, grown, hadopt]

-- A command that can be put below the one at a place.
structure Fresh (t : Tree) (p : Nat) (c : Command) : Prop where
  place    : p < t.nodes.length
  index    : c.index = t.nodes.length
  parent   : c.parent = some (p : Int)
  children : c.children = []
  aliases  : c.aliases.Nodup
  free     : ∀ {d w}, d ∈ t.nodes → d.parent = some (p : Int) → w ∈ c.callNames → w ∉ d.callNames

namespace Fresh

theorem not_mem_names (f : t.Fresh p c) (s : t.Sound) (hd : t.nodes[p]? = some d) :
    c.name ∉ d.children.names := by
  intro h
  have ⟨⟨n, j⟩, he, hn⟩ := List.mem_map.mp h
  have ⟨i, e, _, hi, hp, hne⟩ := s.child hd he
  have hw : c.name ∈ e.callNames := by
    rw [← hn, ← hne]
    exact List.mem_cons_self
  exact f.free (List.mem_of_getElem? hi) hp List.mem_cons_self hw

theorem parent_grown (f : t.Fresh p c) (s : t.Sound) {e : Command}
    (he : (t.grown p c).nodes[i]? = some e) (hi : i ≠ 0) :
    ∃ (q : Nat) (d : Command), q < i ∧ (t.grown p c).nodes[q]? = some d ∧
      e.parent = some (q : Int) ∧ d.children.get? e.name = some (i : Int) := by
  cases getElem?_grown he
  case inr h =>
    have hp := List.getElem?_eq_getElem f.place
    refine ⟨p, _, h.1 ▸ f.place, getElem?_grown_of_some hp, by rw [h.2, f.parent], ?_⟩
    rw [children_adopted_self, h.1, h.2, Ordered.get?_put_self]
  case inl h =>
    have ⟨d, hd, h⟩ := h
    have ⟨q, d', hlt, hq, hp, hg⟩ := s.parent hd hi
    refine ⟨q, _, hlt, getElem?_grown_of_some hq, by rw [h, parent_adopted, hp], ?_⟩
    rw [h, name_adopted]
    by_cases hpq : p = q
    case neg => rw [children_adopted_of_ne hpq, hg]
    case pos =>
      subst hpq
      have hne : d.name ≠ c.name := fun hn =>
        f.free (List.mem_of_getElem? hd) hp List.mem_cons_self (hn ▸ List.mem_cons_self)
      rw [children_adopted_self, Ordered.get?_put_of_ne hne, hg]

theorem child_grown (f : t.Fresh p c) (s : t.Sound) {q : Nat} {e : Command} {n : String} {j : Int}
    (he : (t.grown p c).nodes[q]? = some e) (hm : (n, j) ∈ e.children) :
    ∃ (i : Nat) (d : Command), j = i ∧ (t.grown p c).nodes[i]? = some d ∧
      d.parent = some (q : Int) ∧ d.name = n := by
  cases getElem?_grown he
  case inr h =>
    rw [h.2, f.children] at hm
    cases hm
  case inl h =>
    have ⟨d, hd, h⟩ := h
    have hcase : (n, j) ∈ d.children ∨ (p = q ∧ n = c.name ∧ j = t.nodes.length) := by
      by_cases hpq : p = q
      case neg => exact .inl (by rwa [h, children_adopted_of_ne hpq] at hm)
      case pos =>
        subst hpq
        rw [h, children_adopted_self, Ordered.put_of_not_mem (f.not_mem_names s hd)] at hm
        simpa using hm
    cases hcase
    case inl hm =>
      have ⟨i, e', hj, hi, hp, hn⟩ := s.child hd hm
      exact ⟨i, _, hj, getElem?_grown_of_some hi, by simpa using hp, by simpa using hn⟩
    case inr h =>
      have ⟨hpq, hn, hj⟩ := h
      exact ⟨_, c, hj, getElem?_grown_self, hpq ▸ f.parent, hn.symm⟩

theorem names_grown (f : t.Fresh p c) (s : t.Sound) {e : Command}
    (he : (t.grown p c).nodes[i]? = some e) : e.children.names.Nodup := by
  cases getElem?_grown he
  case inr h => simp [h.2, f.children, Ordered.names]
  case inl h =>
    obtain ⟨d, hd, h⟩ := h
    have hn := s.names (List.mem_of_getElem? hd)
    rw [h]
    by_cases hpi : p = i
    case neg => rwa [children_adopted_of_ne hpi]
    case pos =>
      subst hpi
      have hm := f.not_mem_names s hd
      rw [children_adopted_self, Ordered.names_put, if_neg hm]
      refine List.nodup_append.mpr ⟨hn, by simp, ?_⟩
      rintro a ha b hb rfl
      exact hm (List.mem_singleton.mp hb ▸ ha)

theorem distinct_grown (f : t.Fresh p c) (s : t.Sound) {j : Nat} {a b : Command} {w : String}
    (ha : (t.grown p c).nodes[i]? = some a) (hb : (t.grown p c).nodes[j]? = some b)
    (hp : a.parent = b.parent) (hwa : w ∈ a.callNames) (hwb : w ∈ b.callNames) : a = b := by
  cases getElem?_grown ha <;> cases getElem?_grown hb
  case inr.inr h h' => rw [h.2, h'.2]
  case inl.inr h h' =>
    have ⟨d, hd, h⟩ := h
    rw [h, h'.2, parent_adopted, f.parent] at hp
    rw [h, callNames_adopted] at hwa
    exact absurd hwa (f.free (List.mem_of_getElem? hd) hp (h'.2 ▸ hwb))
  case inr.inl h h' =>
    have ⟨d, hd, h'⟩ := h'
    rw [h.2, h', parent_adopted, f.parent] at hp
    rw [h', callNames_adopted] at hwb
    exact absurd hwb (f.free (List.mem_of_getElem? hd) hp.symm (h.2 ▸ hwa))
  case inl.inl h h' =>
    have ⟨d, hd, h⟩ := h
    have ⟨e, he, h'⟩ := h'
    rw [h, h', parent_adopted, parent_adopted] at hp
    rw [h, callNames_adopted] at hwa
    rw [h', callNames_adopted] at hwb
    have hde := s.distinct (List.mem_of_getElem? hd) (List.mem_of_getElem? he) hp hwa hwb
    subst hde
    have hij : i = j := by
      have := (s.index hd).symm.trans (s.index he)
      omega
    rw [h, h', hij]

theorem sound (f : t.Fresh p c) (s : t.Sound) : (t.grown p c).Sound where
  root := by
    have ⟨r, hr, hp⟩ := s.root
    exact ⟨_, getElem?_grown_of_some hr, by simpa using hp⟩
  index := by
    intro i e he
    cases getElem?_grown he
    case inl h =>
      have ⟨d, hd, h⟩ := h
      rw [h, index_adopted, s.index hd]
    case inr h => rw [h.1, h.2, f.index]
  parent := f.parent_grown s
  child := f.child_grown s
  names := by
    intro e he
    have ⟨i, hi⟩ := List.getElem?_of_mem he
    exact f.names_grown s hi
  aliases := by
    intro e he
    have ⟨i, hi⟩ := List.getElem?_of_mem he
    cases getElem?_grown hi
    case inl h =>
      have ⟨d, hd, h⟩ := h
      rw [h, aliases_adopted]
      exact s.aliases (List.mem_of_getElem? hd)
    case inr h => exact h.2 ▸ f.aliases
  distinct := by
    intro a b w ha hb
    have ⟨i, hi⟩ := List.getElem?_of_mem ha
    have ⟨j, hj⟩ := List.getElem?_of_mem hb
    exact f.distinct_grown s hi hj

theorem addAlias (f : t.Fresh p c) {w : String} (hw : w ∉ c.aliases)
    (hf : ∀ d ∈ t.nodes, d.parent = some (p : Int) → w ∉ d.callNames) :
    t.Fresh p { c with aliases := c.aliases ++ [w] } where
  place    := f.place
  index    := f.index
  parent   := f.parent
  children := f.children
  aliases  := by
    refine List.nodup_append.mpr ⟨f.aliases, by simp, ?_⟩
    rintro a ha b hb rfl
    exact hw (List.mem_singleton.mp hb ▸ ha)
  free := by
    intro d v hd hp hv
    have hcase : v ∈ c.callNames ∨ v = w := by
      simpa [Command.callNames, or_assoc] using hv
    cases hcase
    case inl h => exact f.free hd hp h
    case inr h => exact h ▸ hf d hd hp

end Fresh

end Tree

end ShellArgs
