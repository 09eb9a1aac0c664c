import ShellArgs.Proofs.Builder.Blocks
import ShellArgs.Proofs.Check
import ShellArgs.Proofs.Directive.Lines

namespace ShellArgs

namespace Directive

-- Each directive and the command directive that it comes after, if there is one.
def owned : Option Directive → List Directive → List (Option Directive × Directive)
  | _, []      => []
  | o, d :: ds => if d.kind = .command then owned (some d) ds else (o, d) :: owned o ds

-- The directives that come after a command directive and before the next one. Those before
-- all command directives belong to none.
def block (ds : List Directive) (o : Option Directive) : List Directive :=
  (owned none ds).filterMap fun a => if a.1 = o then some a.2 else none

-- What directives can belong to: nothing, or one of the command directives.
def owners (ds : List Directive) : List (Option Directive) :=
  none :: (ds.filter (·.kind = .command)).map some

def isOption (d : Directive) : Bool :=
  d.kind == .option || d.kind == .flag

def isPositional (d : Directive) : Bool :=
  d.kind == .positional

-- A parameter as its directive declares it, whatever variable it is bound to.
structure Declares (d : Directive) (p : Param) : Prop where
  kind : d.kind = p.kind.directive
  line : p.line = d.line
  read : ∃ q, Descriptor.read p.kind d.text d.line = .ok q ∧ p = { q with envVar := p.envVar }

end Directive

-- The node of a command directive, or the root.
structure Tree.NodeOf (t : Tree) (o : Option Directive) (c : Command) : Prop where
  mem    : c ∈ t.nodes
  parent : c.parent = none ↔ o = none
  line   : ∀ {d}, o = some d → c.line = d.line

structure Faithful (ds : List Directive) (t : Tree) : Prop where
  root    : ∃! c, t.NodeOf none c
  command : ∀ {d}, d ∈ ds → d.kind = .command → ∃! c, t.NodeOf (some d) c
  -- There are no other nodes.
  node    : ∀ {c}, c ∈ t.nodes → ∃ o ∈ Directive.owners ds, t.NodeOf o c
  params  : ∀ {o c}, o ∈ Directive.owners ds → t.NodeOf o c →
    List.Forall₂ Directive.Declares ((Directive.block ds o).filter (·.isOption) ++
      (Directive.block ds o).filter (·.isPositional)) c.params
  param   : ∀ {o d} {k : ParamKind}, (o, d) ∈ Directive.owned none ds → d.kind = k.directive →
    (t.nodes.flatMap (·.params)).countP (·.line = d.line) = 1 ∧
      ∃ c, t.NodeOf o c ∧ ∃ p ∈ c.params, p.line = d.line
  aliases : ∀ {o d c}, (o, d) ∈ Directive.owned none ds → d.kind = .aliases → t.NodeOf o c →
    ∀ w ∈ Directive.aliasNames d.text, String.ofList w ∈ c.aliases
  before  : ∀ {o d c}, (o, d) ∈ Directive.owned none ds → d.kind = .before → t.NodeOf o c →
    c.before = some d.text
  after   : ∀ {o d c}, (o, d) ∈ Directive.owned none ds → d.kind = .after → t.NodeOf o c →
    c.after = some d.text
  -- Variables are bound to what their names mean, and the last one counts.
  env     : ∀ {o c p e}, o ∈ Directive.owners ds → t.NodeOf o c →
    (((Directive.block ds o).filterMap Directive.binding?).filter fun e =>
      c.findParam? e.target = some p).getLast? = some e → p.envVar = some e.envVar
  binding : ∀ {d}, d ∈ ds → d.kind = .env → ∃ e, d.binding? = some e

namespace Directive

variable {ds es : List Directive} {o : Option Directive} {d : Directive}

theorem owned_append (h : ∀ d ∈ ds, d.kind ≠ .command) :
    owned o (ds ++ es) = ds.map (o, ·) ++ owned o es := by
  induction ds
  case nil => rfl
  case cons d ds hi =>
    have hd : d.kind ≠ .command := h d List.mem_cons_self
    have := hi fun e he => h e (List.mem_cons_of_mem d he)
    simp [owned, hd, this]

theorem mem_of_mem_owned {o' : Option Directive} (h : (o, d) ∈ owned o' ds) : d ∈ ds := by
  induction ds generalizing o'
  case nil => cases h
  case cons e ds hi =>
    unfold owned at h
    split at h
    case isTrue  => exact List.mem_cons_of_mem e (hi h)
    case isFalse =>
      cases List.mem_cons.mp h
      case inl h => exact (Prod.mk.inj h).2 ▸ List.mem_cons_self
      case inr h => exact List.mem_cons_of_mem e (hi h)

theorem exists_owned (o : Option Directive) (h : d ∈ ds) (hk : d.kind ≠ .command) :
    ∃ o', (o', d) ∈ owned o ds := by
  induction ds generalizing o
  case nil => cases h
  case cons e ds hi =>
    unfold owned
    cases List.mem_cons.mp h
    case inl h =>
      subst h
      exact ⟨o, by simp [hk]⟩
    case inr h =>
      split
      case isTrue  => exact hi (some e) h
      case isFalse =>
        have ⟨o', ho⟩ := hi o h
        exact ⟨o', List.mem_cons_of_mem _ ho⟩

end Directive

namespace Contents.Of

variable {ds : List Directive} {d : Directive} {k : Contents} {c : Command}

theorem declares_of_param? {p : Param} (h : d.param? = some p) : d.Declares p := by
  have ⟨k, hk, hp⟩ := Option.bind_eq_some_iff.mp h
  have hr : Descriptor.read k d.text d.line = .ok p := by
    cases hr : Descriptor.read k d.text d.line
    case error => simp [hr, Except.toOption] at hp
    case ok q  => simpa [hr, Except.toOption] using hp
  have hkind := (Descriptor.declared_of_read hr).kind
  subst hkind
  exact ⟨ParamKind.ofDirective?_eq_some_iff.mp hk, Descriptor.line_of_read hr, p, hr, rfl⟩

theorem isPositional_of_param? {p : Param} (h : d.param? = some p) :
    p.isPositional = d.isPositional ∧ d.isOption = !d.isPositional := by
  have hk := (declares_of_param? h).kind
  cases hp : p.kind <;>
    simp [Param.isPositional, Directive.isPositional, Directive.isOption, hk, hp, ParamKind.directive]

theorem filter_filterMap_param? :
    (ds.filterMap Directive.param?).filter (!·.isPositional) =
        (ds.filter (·.isOption)).filterMap Directive.param? ∧
      (ds.filterMap Directive.param?).filter (·.isPositional) =
        (ds.filter (·.isPositional)).filterMap Directive.param? := by
  induction ds
  case nil => simp
  case cons d ds hi =>
    cases hp : d.param?
    case none =>
      cases ho : d.isOption <;> cases hs : d.isPositional <;> simp [hp, ho, hs, hi]
    case some p =>
      have ⟨h, h'⟩ := isPositional_of_param? hp
      cases hs : d.isPositional <;> simp [hp, h, h', hs, hi]

theorem forall₂_declares (h : Of ds k) (hc : c.Holds k) :
    List.Forall₂ Directive.Declares (ds.filter (·.isOption) ++ ds.filter (·.isPositional)) c.params := by
  have hread : ∀ d ∈ ds, d.isOption ∨ d.isPositional → ∃ p, d.param? = some p ∧ d.Declares p := by
    intro d hd hk
    have ⟨k, hk⟩ : ∃ k : ParamKind, d.kind = k.directive := by
      simp only [Directive.isOption, Directive.isPositional, Bool.or_eq_true, beq_iff_eq] at hk
      obtain (hk | hk) | hk := hk
      · exact ⟨.option, hk⟩
      · exact ⟨.flag, hk⟩
      · exact ⟨.positional, hk⟩
    have ⟨p, hp⟩ := h.exists_param hd hk
    have hp := param?_eq_some hk hp
    exact ⟨p, hp, declares_of_param? hp⟩
  have hparams : List.Forall₂ Directive.Declares (ds.filter (·.isOption) ++ ds.filter (·.isPositional))
      k.params := by
    rw [h.params_eq, Param.arranged, filter_filterMap_param?.1, filter_filterMap_param?.2]
    refine List.rel_append (Matching.forall₂_filterMap fun d hd => ?_)
      (Matching.forall₂_filterMap fun d hd => ?_)
    · exact hread d (List.mem_of_mem_filter hd) (.inl (List.mem_filter.mp hd).2)
    · exact hread d (List.mem_of_mem_filter hd) (.inr (List.mem_filter.mp hd).2)
  refine Matching.forall₂_of_getElem?_eq hparams (fun i => hc.params ▸ Builder.getElem?_bindEnv) ?_
  rintro i d p ⟨hk, hl, q, hr, hp⟩
  exact ⟨hk, hl, q, hr, by rw [hp]⟩

-- The lines of parameters are those of their directives, in another order.
theorem perm_lines (h : Of ds k) (hc : c.Holds k) :
    (c.params.map (·.line)).Perm ((ds.filter fun d => d.isOption || d.isPositional).map (·.line)) := by
  have hlines : ∀ {es : List Directive} {ps : List Param}, List.Forall₂ Directive.Declares es ps →
      ps.map (·.line) = es.map (·.line) := by
    intro es ps h
    induction h
    case nil             => rfl
    case cons hd _ hi => simp [hd.line, hi]
  rw [hlines (h.forall₂_declares hc)]
  refine List.Perm.map _ ?_
  clear h
  induction ds
  case nil => exact .nil
  case cons d ds hi =>
    have hne : ¬ (d.isOption ∧ d.isPositional) := by
      rintro ⟨ho, hp⟩
      simp only [Directive.isOption, Directive.isPositional, Bool.or_eq_true, beq_iff_eq] at ho hp
      simp [hp] at ho
    cases ho : d.isOption
    case true =>
      have hp : d.isPositional = false := by simpa [ho] using hne
      simpa [ho, hp] using hi
    case false =>
      cases hp : d.isPositional
      case false => simpa [ho, hp] using hi
      case true  => simpa [ho, hp] using List.perm_middle.trans (hi.cons d)

end Contents.Of

namespace Layout

open Directive

variable {ds header : List Directive} {bs : List Block} {b : Block} {d : Directive}
variable {o : Option Directive}

theorem owned_eq (l : Layout ds header bs) :
    owned none ds = header.map (none, ·) ++ bs.flatMap fun b => b.body.map (some b.opener, ·) := by
  rw [l.eq, owned_append l.header]
  congr 1
  generalize (none : Option Directive) = o
  have ho := l.opener
  have hb := l.body
  clear l
  induction bs generalizing o
  case nil => rfl
  case cons b bs hi =>
    have hk : b.opener.kind = .command := ho b List.mem_cons_self
    have := hi (some b.opener) (fun c hc => ho c (List.mem_cons_of_mem b hc))
      (fun c hc => hb c (List.mem_cons_of_mem b hc))
    simp only [List.flatMap_cons, Block.directives, List.cons_append, owned, hk, if_true]
    rw [owned_append (hb b List.mem_cons_self), this]

theorem block_eq (l : Layout ds header bs) :
    block ds o = (if none = o then header else []) ++
      bs.flatMap fun b => if some b.opener = o then b.body else [] := by
  have hmap : ∀ (o' : Option Directive) (es : List Directive),
      (es.map (o', ·)).filterMap (fun a => if a.1 = o then some a.2 else none) =
        if o' = o then es else [] := by
    intro o' es
    rw [List.filterMap_map]
    split
    case isTrue h  => simp [h]
    case isFalse h => simp [h]
  rw [block, l.owned_eq, List.filterMap_append, hmap, List.filterMap_flatMap]
  simp only [hmap]

theorem block_none (l : Layout ds header bs) : block ds none = header := by
  simp [l.block_eq]

-- The opening directives have lines of their own.
theorem pairwise_opener (l : Layout ds header bs) (h : ds.Pairwise (·.line < ·.line)) :
    bs.Pairwise fun b c => b.opener.line < c.opener.line := by
  rw [l.eq, List.pairwise_append] at h
  have hbs := h.2.1
  clear l h
  induction bs
  case nil => exact .nil
  case cons b bs hi =>
    rw [List.flatMap_cons, List.pairwise_append] at hbs
    refine .cons (fun c hc => ?_) (hi hbs.2.1)
    refine hbs.2.2 b.opener List.mem_cons_self c.opener ?_
    exact List.mem_flatMap.mpr ⟨c, hc, List.mem_cons_self⟩

theorem block_opener (l : Layout ds header bs) (h : ds.Pairwise (·.line < ·.line)) (hb : b ∈ bs) :
    block ds (some b.opener) = b.body := by
  have ⟨bs₁, bs₂, he⟩ := List.append_of_mem hb
  have hp := l.pairwise_opener h
  rw [he, List.pairwise_append] at hp
  have ⟨_, hp₂, hp₁⟩ := hp
  have h₁ : (bs₁.flatMap fun c => if some c.opener = some b.opener then c.body else []) = [] := by
    refine List.flatMap_eq_nil_iff.mpr fun c hc => if_neg fun heq => ?_
    have := hp₁ c hc b List.mem_cons_self
    rw [Option.some.inj heq] at this
    omega
  have h₂ : (bs₂.flatMap fun c => if some c.opener = some b.opener then c.body else []) = [] := by
    refine List.flatMap_eq_nil_iff.mpr fun c hc => if_neg fun heq => ?_
    have := (List.pairwise_cons.mp hp₂).1 c hc
    rw [Option.some.inj heq] at this
    omega
  rw [l.block_eq, he, List.flatMap_append, List.flatMap_cons, h₁, h₂]
  simp

theorem mem_owners_iff (l : Layout ds header bs) :
    o ∈ owners ds ↔ o = none ∨ ∃ b ∈ bs, o = some b.opener := by
  have hheader : header.filter (·.kind = .command) = [] := by
    simpa [List.filter_eq_nil_iff] using l.header
  have hmem : ∀ d, d ∈ ds.filter (·.kind = .command) ↔ ∃ b ∈ bs, d = b.opener := by
    intro d
    rw [l.eq, List.filter_append, hheader, List.nil_append, List.mem_filter, List.mem_flatMap]
    constructor
    · rintro ⟨⟨b, hb, hd⟩, hk⟩
      cases List.mem_cons.mp hd
      case inl hd => exact ⟨b, hb, hd⟩
      case inr hd => simp [l.body b hb d hd] at hk
    · rintro ⟨b, hb, hd⟩
      exact ⟨⟨b, hb, hd ▸ List.mem_cons_self⟩, by simp [hd, l.opener b hb]⟩
  rw [owners, List.mem_cons, List.mem_map]
  constructor
  · rintro (h | ⟨d, hd, h⟩)
    · exact .inl h
    · have ⟨b, hb, he⟩ := (hmem d).mp hd
      exact .inr ⟨b, hb, he ▸ h.symm⟩
  · rintro (h | ⟨b, hb, h⟩)
    · exact .inl h
    · exact .inr ⟨b.opener, (hmem _).mpr ⟨b, hb, rfl⟩, h.symm⟩

theorem mem_of_mem_owned (l : Layout ds header bs) (h : (o, d) ∈ owned none ds) :
    o ∈ owners ds ∧ d ∈ block ds o := by
  refine ⟨?_, List.mem_filterMap.mpr ⟨(o, d), h, by simp⟩⟩
  rw [l.owned_eq] at h
  rw [l.mem_owners_iff]
  cases List.mem_append.mp h
  case inl h =>
    have ⟨_, _, he⟩ := List.mem_map.mp h
    exact .inl (Prod.mk.inj he).1.symm
  case inr h =>
    have ⟨b, hb, hm⟩ := List.mem_flatMap.mp h
    have ⟨_, _, he⟩ := List.mem_map.mp hm
    exact .inr ⟨b, hb, (Prod.mk.inj he).1.symm⟩

end Layout

namespace Described

open Directive

variable {ds header : List Directive} {bs : List Block} {t : Tree} {o : Option Directive}
variable {c : Command}

-- The root and the nodes of the blocks.
theorem exists_nodes (h : Described ds header bs t) (s : t.Sound) :
    ∃ r cs, t.nodes = r :: cs ∧ r.parent = none ∧ (∀ c ∈ cs, c.parent ≠ none) ∧
      (∃ k, Contents.Of header k ∧ r.Holds k) ∧ List.Forall₂ Block.Describes bs cs := by
  have ⟨r, cs, hn, hr, hf⟩ := h.nodes
  refine ⟨r, cs, hn, ?_, ?_, hr, hf⟩
  · exact (s.joined.parent_eq_none_iff (by simp [hn])).mpr (s.index (by simp [hn]))
  · intro c hc hp
    have ⟨i, hi⟩ := List.getElem?_of_mem hc
    have hi : t.nodes[i + 1]? = some c := by simpa [hn] using hi
    have := (s.joined.parent_eq_none_iff (List.mem_of_getElem? hi)).mp hp
    rw [s.index hi] at this
    omega

-- Nodes hold what is in their blocks.
theorem holds (h : Described ds header bs t) (s : t.Sound) (hl : ds.Pairwise (·.line < ·.line))
    (ho : o ∈ owners ds) (hc : t.NodeOf o c) : ∃ k, Contents.Of (block ds o) k ∧ c.Holds k := by
  have ⟨r, cs, hn, hp, hps, ⟨k, hk, hh⟩, hf⟩ := h.exists_nodes s
  have hmem : c = r ∨ c ∈ cs := List.mem_cons.mp (hn ▸ hc.mem)
  cases hmem
  case inl hcr =>
    have : o = none := hc.parent.mp (hcr ▸ hp)
    rw [this, h.layout.block_none, hcr]
    exact ⟨k, hk, hh⟩
  case inr hcs =>
    cases h.layout.mem_owners_iff.mp ho
    case inl ho => exact absurd (hc.parent.mpr ho) (hps c hcs)
    case inr ho =>
      have ⟨b, hb, ho⟩ := ho
      have ⟨b', hb', hd⟩ := Matching.exists_of_mem_right hf hcs
      have hline : b'.opener.line = b.opener.line := hd.line.symm.trans (hc.line ho)
      have heq : b' = b := Matching.eq_of_pairwise_lt (f := fun b => b.opener.line)
        (h.layout.pairwise_opener hl) hb' hb hline
      subst heq
      rw [ho, h.layout.block_opener hl hb]
      exact hd.contents

theorem holds_owned {d : Directive} (h : Described ds header bs t) (s : t.Sound)
    (hl : ds.Pairwise (·.line < ·.line)) (hd : (o, d) ∈ owned none ds) (hc : t.NodeOf o c) :
    ∃ k, Contents.Of (block ds o) k ∧ c.Holds k ∧ d ∈ block ds o := by
  obtain ⟨ho, hb⟩ := h.layout.mem_of_mem_owned hd
  obtain ⟨k, hk, hh⟩ := h.holds s hl ho hc
  exact ⟨k, hk, hh, hb⟩

theorem exists_node (h : Described ds header bs t) (s : t.Sound) (hl : ds.Pairwise (·.line < ·.line))
    (ho : o ∈ owners ds) : ∃! c, t.NodeOf o c := by
  have ⟨r, cs, hn, hp, hps, _, hf⟩ := h.exists_nodes s
  have hmem : ∀ {c}, c ∈ t.nodes → c = r ∨ c ∈ cs := fun hc => List.mem_cons.mp (hn ▸ hc)
  cases h.layout.mem_owners_iff.mp ho
  case inl ho =>
    subst ho
    refine ⟨r, ⟨by simp [hn], by simp [hp], by simp⟩, fun c hc => ?_⟩
    exact (hmem hc.mem).elim id fun hcs => absurd (hc.parent.mpr rfl) (hps c hcs)
  case inr ho =>
    have ⟨b, hb, ho⟩ := ho
    subst ho
    have ⟨c, hc, hd⟩ := Matching.exists_of_mem_left hf hb
    refine ⟨c, ⟨by simp [hn, hc], by simp [hps c hc], ?_⟩, fun c' hc' => ?_⟩
    · intro d hd'
      rw [hd.line, Option.some.inj hd']
    · have hcs : c' ∈ cs := (hmem hc'.mem).resolve_left fun he => by
        simpa using hc'.parent.mp (he ▸ hp)
      have hlines : cs.Pairwise (·.line < ·.line) :=
        Matching.pairwise_right hf (fun h h' hlt => by rw [h.line, h'.line]; exact hlt)
          (h.layout.pairwise_opener hl)
      exact Matching.eq_of_pairwise_lt (f := (·.line)) hlines hcs hc ((hc'.line rfl).trans hd.line.symm)

theorem exists_owner (h : Described ds header bs t) (s : t.Sound) (hc : c ∈ t.nodes) :
    ∃ o ∈ owners ds, t.NodeOf o c := by
  have ⟨r, cs, hn, hp, hps, _, hf⟩ := h.exists_nodes s
  cases List.mem_cons.mp (hn ▸ hc)
  case inl he =>
    subst he
    exact ⟨none, List.mem_cons_self, hc, by simp [hp], by simp⟩
  case inr hcs =>
    have ⟨b, hb, hd⟩ := Matching.exists_of_mem_right hf hcs
    refine ⟨some b.opener, h.layout.mem_owners_iff.mpr (.inr ⟨b, hb, rfl⟩), hc, ?_, ?_⟩
    · simp [hps c hcs]
    · intro d hd'
      rw [hd.line, Option.some.inj hd']

theorem perm_lines (h : Described ds header bs t) :
    ((t.nodes.flatMap (·.params)).map (·.line)).Perm
      ((ds.filter fun d => d.isOption || d.isPositional).map (·.line)) := by
  have ⟨r, cs, hn, ⟨k, hk, hh⟩, hf⟩ := h.nodes
  have hbs : ((cs.flatMap (·.params)).map (·.line)).Perm
      (((bs.flatMap Block.directives).filter fun d => d.isOption || d.isPositional).map (·.line)) := by
    have ho := h.layout.opener
    clear h hk hh hn
    induction hf
    case nil => simp
    case cons b c bs cs hd _ hi =>
      have ⟨k, hk, hh⟩ := hd.contents
      have hopener : (b.opener.isOption || b.opener.isPositional) = false := by
        simp [isOption, isPositional, ho b List.mem_cons_self]
      have := hi fun b' hb' => ho b' (List.mem_cons_of_mem b hb')
      simp only [List.flatMap_cons, Block.directives, List.cons_append, List.filter_cons, hopener,
        Bool.false_eq_true, if_false, List.filter_append, List.map_append]
      exact (hk.perm_lines hh).append this
  rw [hn, h.layout.eq, List.flatMap_cons, List.filter_append, List.map_append, List.map_append]
  exact (hk.perm_lines hh).append hbs

-- Every parameter directive leads to exactly one parameter.
theorem countP_line (h : Described ds header bs t) (hl : ds.Pairwise (·.line < ·.line))
    {d : Directive} (hd : d ∈ ds) (hk : d.isOption ∨ d.isPositional) :
    (t.nodes.flatMap (·.params)).countP (·.line = d.line) = 1 := by
  have hcount : (t.nodes.flatMap (·.params)).countP (·.line = d.line) =
      ((t.nodes.flatMap (·.params)).map (·.line)).count d.line := by
    rw [List.count, List.countP_map]
    rfl
  rw [hcount, h.perm_lines.count_eq]
  refine List.count_eq_one_of_mem ?_ (List.mem_map_of_mem (List.mem_filter.mpr ⟨hd, by simpa using hk⟩))
  exact ((List.pairwise_map.mpr hl).imp fun h => Int.ne_of_lt h).sublist (List.filter_sublist.map _)

theorem faithful (h : Described ds header bs t) (s : t.Sound) (hl : ds.Pairwise (·.line < ·.line)) :
    Faithful ds t where
  root    := h.exists_node s hl List.mem_cons_self
  command := by
    intro d hd hk
    refine h.exists_node s hl (List.mem_cons_of_mem _ (List.mem_map_of_mem ?_))
    exact List.mem_filter.mpr ⟨hd, by simp [hk]⟩
  node    := fun hc => h.exists_owner s hc
  params  := by
    intro o c ho hc
    obtain ⟨k, hk, hh⟩ := h.holds s hl ho hc
    exact hk.forall₂_declares hh
  param   := by
    intro o d k hd hkind
    obtain ⟨ho, _⟩ := h.layout.mem_of_mem_owned hd
    have hp : d.isOption ∨ d.isPositional := by
      cases k <;> simp [isOption, isPositional, hkind, ParamKind.directive]
    refine ⟨h.countP_line hl (mem_of_mem_owned hd) hp, ?_⟩
    obtain ⟨c, hc, _⟩ := h.exists_node s hl ho
    obtain ⟨k, hk, hh, hb⟩ := h.holds_owned s hl hd hc
    have hm : d ∈ (block ds o).filter (·.isOption) ++ (block ds o).filter (·.isPositional) := by
      simpa [hb] using hp
    obtain ⟨p, hp, hdp⟩ := Matching.exists_of_mem_left (hk.forall₂_declares hh) hm
    exact ⟨c, hc, p, hp, hdp.line⟩
  aliases := by
    intro o d c hd hkind hc w hw
    obtain ⟨k, hk, hh, hb⟩ := h.holds_owned s hl hd hc
    obtain ⟨a, ha, he⟩ := hk.mem_aliases hb hkind hw
    exact he ▸ hh.aliases a ha
  before  := by
    intro o d c hd hkind hc
    obtain ⟨k, hk, hh, hb⟩ := h.holds_owned s hl hd hc
    rw [hh.before, hk.before_eq hb hkind]
  after   := by
    intro o d c hd hkind hc
    obtain ⟨k, hk, hh, hb⟩ := h.holds_owned s hl hd hc
    rw [hh.after, hk.after_eq hb hkind]
  env     := by
    intro o c p e ho hc he
    obtain ⟨k, hk, hh⟩ := h.holds s hl ho hc
    rw [← hk.env_eq] at he
    simp only [Command.findParam?, hh.params] at he
    exact Builder.envVar_bindEnv he
  binding := by
    intro d hd hk
    obtain ⟨o, hm⟩ := exists_owned none hd (by simp [hk])
    obtain ⟨ho, _⟩ := h.layout.mem_of_mem_owned hm
    obtain ⟨c, hc, _⟩ := h.exists_node s hl ho
    obtain ⟨k, hk', _, hb⟩ := h.holds_owned s hl hm hc
    exact hk'.exists_binding hb hk

end Described

-- In an accepted script, each line with a tag is a directive, and the tree is faithful to all
-- directives.
theorem check_faithful {text : String} {r : Report} (h : check text = .ok r) (ho : r.ok) :
    ((Directive.lex text).1.filter (·.kind ≠ .function)).map (fun d => (d.kind, d.line)) =
        Directive.taggedLines text ∧
      Faithful (Directive.lex text).1 r.tree := by
  have ⟨problems, fs, a⟩ := accepted_of_check h ho
  have ⟨header, bs, hd⟩ := Tree.described_of_ofDirectives a.tree a.structural
  exact ⟨Directive.tags_lex a.lexical, hd.faithful a.sound (Directive.pairwise_line_lex text)⟩

-- A script with a header and a command, and with directives of nearly all kinds.
theorem check_faithful_deploy :
    let text := "# @option -e --env <NAME>  Target\n# @env DEPLOY_ENV env\n# @cmd Deploy\n" ++
      "# @alias d,dep\n# @arg file!\n# @flag -f --force\n# @env FORCE -f\n# @before prepare\n" ++
      "deploy() \x7b :; \x7d\n"
    ∃ r, check text = .ok r ∧ r.ok ∧
      ((Directive.lex text).1.filter (·.kind ≠ .function)).map (fun d => (d.kind, d.line)) =
        Directive.taggedLines text ∧
      Faithful (Directive.lex text).1 r.tree := by
  intro text
  let ds : List Directive := [
    ⟨.option, "-e --env <NAME>  Target", 1⟩,
    ⟨.env, "DEPLOY_ENV env", 2⟩,
    ⟨.command, "Deploy", 3⟩,
    ⟨.aliases, "d,dep", 4⟩,
    ⟨.positional, "file!", 5⟩,
    ⟨.flag, "-f --force", 6⟩,
    ⟨.env, "FORCE -f", 7⟩,
    ⟨.before, "prepare", 8⟩,
    ⟨.function, "deploy", 9⟩]
  let root : Command := {
    index := 0
    params := [{
      name := "env"
      kind := .option
      short := some "-e"
      long := some "--env"
      valueNames := ["NAME"]
      envVar := some "DEPLOY_ENV"
      help := "Target"
      line := 1
    }]
    children := [("deploy", 1)]
  }
  let deploy : Command := {
    index := 1
    name := "deploy"
    aliases := ["d", "dep"]
    help := "Deploy"
    params := [
      { name := "force", kind := .flag, short := some "-f", long := some "--force",
        envVar := some "FORCE", line := 6 },
      { name := "file", kind := .positional, required := true, line := 5 }]
    parent := some 0
    func := some "deploy"
    before := some "prepare"
    line := 3
  }
  -- Each part of the work is evaluated on its own.
  have hlex : Directive.lex text = (ds, []) := by decide +kernel
  have htree : Tree.ofDirectives ds = .ok (⟨[root, deploy]⟩, []) := by decide +kernel
  have hvalid : Tree.validate ⟨[root, deploy]⟩ = .ok [] := by decide +kernel
  let r : Report := { tree := ⟨[root, deploy]⟩, diagnostics := [], directives := 9 }
  have h : check text = .ok r := by
    simp [check, hlex, htree, hvalid, Diagnostic.sorted, ds, r]
  exact ⟨r, h, rfl, check_faithful h rfl⟩

end ShellArgs
