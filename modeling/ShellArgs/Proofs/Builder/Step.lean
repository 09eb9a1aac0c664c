import ShellArgs.Proofs.Builder.Contents
import ShellArgs.Proofs.Builder.Problems
import ShellArgs.Proofs.Tree.Growth
import ShellArgs.Proofs.Tree.Sound

-- What a single directive can do to a builder, as far as it matters for the tree and for what is in
-- it. A directive that is wrong leaves a problem and nothing else. All others add to the header or
-- to the pending command, or they begin or end a command.

namespace ShellArgs

open Outcome

namespace Builder

-- A command made from a pending one. `ds` are the problems with its contents.
structure Bound (p : PendingCommand) (function : String) (c : Command) (ds : List Diagnostic) :
    Prop where
  func     : c.func = some function
  line     : c.line = p.line
  before   : c.before = p.before
  after    : c.after = p.after
  params   : c.params = (bindEnv p.env p.params).1
  reported : ∀ d ∈ (bindEnv p.env p.params).2, d ∈ ds
  -- An alias that is left out is reported.
  aliases  : (∀ d ∈ ds, d.isError = false) → ∀ a ∈ p.aliases, a.1 ∈ c.aliases
  kept     : ∀ d ∈ ds, d.tellsLoss = false

-- Nothing but what is pending gets into the command, and all problems are with what is pending.
structure Supplied (p : PendingCommand) (c : Command) (ds : List Diagnostic) : Prop where
  version : c.version = none
  aliases : ∀ w ∈ c.aliases, ∃ a ∈ p.aliases, a.1 = w
  lines   : ∀ d ∈ ds, (∃ a ∈ p.aliases, d.line = a.2) ∨ ∃ e ∈ p.env, d.line = e.line

-- What comes of the aliases that a command asks for: those that it has in the end, and the problems
-- with the others.
structure Claimed (c : Command) (asked : List (String × Int)) (as : List String)
    (ds : List Diagnostic) : Prop where
  had      : c.aliases ⊆ as
  given    : (∀ d ∈ ds, d.isError = false) → ∀ a ∈ asked, a.1 ∈ as
  supplied : ∀ w ∈ as, w ∈ c.aliases ∨ ∃ a ∈ asked, a.1 = w
  kept     : ∀ d ∈ ds, d.tellsLoss = false
  lines    : ∀ d ∈ ds, ∃ a ∈ asked, d.line = a.2

-- The names that lead to the command of a function.
def nameParts (function : String) : List String :=
  (Text.splitOnDouble ':' function.toList).map String.ofList

-- The place of the command above that of a function, and the name that is left for the latter.
structure Leads (t : Tree) (function : String) (q : Nat) (name : String) : Prop where
  parent : ∃ r e, t.root = .ok r ∧ t.nodes[q]? = some e ∧
    descend t r [] (nameParts function).dropLast = .ok (.ok e)
  name   : name = (nameParts function).getLastD ""

inductive Step (b : Builder) (d : Directive) : Builder → Prop
  | refused (hk : d.kind ≠ .command ∧ d.kind ≠ .function) (e : Diagnostic)
      (he : e.isError = true ∧ e.tellsLoss = false) : Step b d (b.reportAll [e])
  | header (ds : List Diagnostic) (hs : b.scope = .header) (hr : b.tree.nodes[0]? = some r) (ha : r.Alike r')
      (hd : (r.headerContents b.headerEnv).Adds d (r'.headerContents env))
      (hw : ∀ d ∈ ds, d.isError = false) :
      Step b d ⟨b.tree.modify 0 fun _ => r', b.diagnostics ++ ds, .header, env⟩
  | pending (hs : b.scope = .command p) (hl : p'.line = p.line) (hd : p.contents.Adds d p'.contents) :
      Step b d { b with scope := .command p' }
  | opened (hk : d.kind = .command) (hs : ∀ p, b.scope ≠ .command p) :
      Step b d { b with scope := .command { line := d.line, help := d.text } }
  | reopened (hk : d.kind = .command) (hs : b.scope = .command p) :
      Step b d { b.report p.line .missingFunction with
        scope := .command { line := d.line, help := d.text } }
  -- Functions outside of commands do not matter, but for the main function.
  | passed (hk : d.kind = .function) (hs : ∀ p, b.scope ≠ .command p) : Step b d b
  | main (hk : d.kind = .function) (hs : ∀ p, b.scope ≠ .command p) :
      Step b d (b.modifyRoot ({ · with func := some d.text }))
  | unnamed (hk : d.kind = .function) (hs : b.scope = .command p) (e : Diagnostic)
      (he : e.isError = true ∧ e.tellsLoss = true) :
      Step b d ({ b with scope := .closed }.reportAll [e])
  | named (hk : d.kind = .function) (hs : b.scope = .command p) (hl : Leads b.tree d.text q c.name)
      (hf : b.tree.Fresh q c) (hc : Bound p d.text c ds) :
      Step b d ⟨b.tree.grown q c, b.diagnostics ++ ds, .closed, b.headerEnv⟩

variable {b : Builder} {d : Directive} {t : Tree} {c : Command} {q : Nat}

-- The last node of a grown tree is at hand without a search.
theorem modify_grown {f : Command → Command} (h : (f c).name = c.name) :
    (t.grown q c).modify t.nodes.length f = t.grown q (f c) := by
  have hl : ∀ ns : List Command, (ns ++ [c]).modify ns.length f = ns ++ [f c] := by
    intro ns
    induction ns with
    | nil          => rfl
    | cons e ns hi => simp [hi]
  have := hl (t.modify q (t.adopted q c.name q)).nodes
  rw [Tree.length_nodes_modify] at this
  simp only [Tree.modify, Tree.grown, h] at this ⊢
  rw [this]

namespace Claimed

variable {asked : List (String × Int)} {as : List String} {ds : List Diagnostic} {x : Diagnostic}
variable {w : String} {line : Int}

theorem nil : Claimed c [] c.aliases [] where
  had          := List.Subset.refl _
  given        := by simp
  supplied _ h := .inl h
  kept         := by simp
  lines        := by simp

-- An alias is left out with an error, unless it is there already.
theorem refuse (h : Claimed c asked as ds) (hl : x.line = line) (hk : x.tellsLoss = false)
    (hw : x.isError = false → w ∈ c.aliases) : Claimed c ((w, line) :: asked) as (x :: ds) where
  had := h.had
  given hx := by
    have ⟨hx, hds⟩ := List.forall_mem_cons.mp hx
    exact List.forall_mem_cons.mpr ⟨h.had (hw hx), h.given hds⟩
  supplied v hv :=
    (h.supplied v hv).imp_right fun ⟨a, ha, he⟩ => ⟨a, List.mem_cons_of_mem _ ha, he⟩
  kept := List.forall_mem_cons.mpr ⟨hk, h.kept⟩
  lines := by
    refine List.forall_mem_cons.mpr ⟨⟨(w, line), List.mem_cons_self, hl⟩, fun d hd => ?_⟩
    have ⟨a, ha, he⟩ := h.lines d hd
    exact ⟨a, List.mem_cons_of_mem _ ha, he⟩

theorem accept (h : Claimed { c with aliases := c.aliases ++ [w] } asked as ds) :
    Claimed c ((w, line) :: asked) as ds where
  had := fun v hv => h.had (List.mem_append_left _ hv)
  given hds :=
    List.forall_mem_cons.mpr ⟨h.had (List.mem_append_right _ List.mem_cons_self), h.given hds⟩
  supplied v hv := by
    obtain hv | ⟨a, ha, he⟩ := h.supplied v hv
    case inr => exact .inr ⟨a, List.mem_cons_of_mem _ ha, he⟩
    case inl =>
      obtain hv | hv := List.mem_append.mp hv
      case inl => exact .inl hv
      case inr => exact .inr ⟨(w, line), List.mem_cons_self, (List.mem_singleton.mp hv).symm⟩
  kept := h.kept
  lines d hd :=
    have ⟨a, ha, he⟩ := h.lines d hd
    ⟨a, List.mem_cons_of_mem _ ha, he⟩

end Claimed

section Aliases

variable (n w : String) (line : Int) (ds : List Diagnostic) (sc : Scope) (env : List EnvBinding)
variable (ws : List (String × Int))

-- An alias of a new command is its own already, calls a sibling, or becomes its own.
theorem claimNames_cons (s : t.Sound) (f : t.Fresh q c) :
    (w ∈ c.aliases ∧ claimNames ⟨t.grown q c, ds, sc, env⟩ q c.index n ((w, line) :: ws) =
      claimNames ⟨t.grown q c, ds ++ [(Problem.repeatedName w n).located line], sc, env⟩ q c.index n
        ws) ∨
    (∃ sibling, claimNames ⟨t.grown q c, ds, sc, env⟩ q c.index n ((w, line) :: ws) =
      claimNames ⟨t.grown q c, ds ++ [(Problem.takenName w n sibling).located line], sc, env⟩ q c.index
        n ws) ∨
    (t.Fresh q { c with aliases := c.aliases ++ [w] } ∧
      claimNames ⟨t.grown q c, ds, sc, env⟩ q c.index n ((w, line) :: ws) =
        claimNames ⟨t.grown q { c with aliases := c.aliases ++ [w] }, ds, sc, env⟩ q c.index n ws) := by
  have sg := f.sound s
  have hc : (t.grown q c).node c.index = .ok c := by
    rw [f.index]
    exact Tree.node_eq_ok Tree.getElem?_grown_self
  have ⟨e, he⟩ : ∃ e, t.nodes[q]? = some e := ⟨_, List.getElem?_eq_getElem f.place⟩
  have hq := Tree.getElem?_grown_of_some (p := q) (c := c) he
  have hqm := List.mem_of_getElem? hq
  have hfind := sg.findChild_eq_ok (w := w) hqm
  have hadd : ∀ b : Builder, b.tree = t.grown q c →
      b.addName c.index w = { b with tree := t.grown q { c with aliases := c.aliases ++ [w] } } := by
    intro b hb
    have : c.index.toNat = t.nodes.length := by rw [f.index, Int.toNat_natCast]
    rw [addName, hb, this, modify_grown rfl]
  by_cases hw : w ∈ c.aliases
  case pos => exact .inl ⟨hw, by simp [claimNames, hc, hw, report]⟩
  case neg =>
    right
    cases hg : ((t.grown q c).subcommands (t.adopted q c.name q e)).find? (w ∈ ·.callNames)
    case none =>
      right
      refine ⟨f.addAlias hw fun d hd hp => ?_, ?_⟩
      · refine Tree.not_mem_callNames_of_grown (c := c) (fun d hb hwd => ?_) (s.index he) hd hp
        have := (sg.find?_callNames_iff hqm).mpr ⟨hb, hwd⟩
        simp [hg] at this
      · simp [claimNames, hc, hw, Tree.node_eq_ok hq, hfind, hg, hadd]
    case some d =>
      have ⟨hb, hwd⟩ := (sg.find?_callNames_iff hqm).mp hg
      by_cases hi : d.index = c.index
      case neg =>
        exact .inl ⟨d.name, by simp [claimNames, hc, hw, Tree.node_eq_ok hq, hfind, hg, hi, report]⟩
      case pos =>
        right
        have hcm := List.mem_of_getElem? (Tree.getElem?_grown_self (t := t) (p := q) (c := c))
        cases sg.joined.eq_of_index_eq hb.mem hcm hi
        refine ⟨f.addAlias hw fun d hd hp hwd' => f.free hd hp hwd hwd', ?_⟩
        simp [claimNames, hc, hw, Tree.node_eq_ok hq, hfind, hg, hadd]

-- None of the aliases of a new command is left out silently.
theorem claimNames_eq_ok (s : t.Sound) (f : t.Fresh q c) :
    ∃ as es, claimNames ⟨t.grown q c, ds, sc, env⟩ q c.index n ws =
        .ok ⟨t.grown q { c with aliases := as }, ds ++ es, sc, env⟩ ∧
      t.Fresh q { c with aliases := as } ∧ Claimed c ws as es := by
  induction ws generalizing c ds
  case nil => exact ⟨c.aliases, [], by simp [claimNames], f, .nil⟩
  case cons a ws hi =>
    obtain ⟨w, line⟩ := a
    obtain ⟨hw, h⟩ | ⟨sibling, h⟩ | ⟨hf', h⟩ := claimNames_cons n w line ds sc env ws s f
    case inl =>
      have ⟨as, es, ho, hf, hc⟩ := hi (ds ++ [(Problem.repeatedName w n).located line]) f
      refine ⟨as, _ :: es, by rw [h, ho, List.append_assoc]; rfl, hf, ?_⟩
      exact hc.refuse rfl (Problem.tellsLoss_located ..) fun _ => hw
    case inr.inl =>
      have ⟨as, es, ho, hf, hc⟩ := hi (ds ++ [(Problem.takenName w n sibling).located line]) f
      refine ⟨as, _ :: es, by rw [h, ho, List.append_assoc]; rfl, hf, ?_⟩
      exact hc.refuse rfl (Problem.tellsLoss_located ..) nofun
    case inr.inr =>
      have ⟨as, es, ho, hf, hc⟩ := hi ds hf'
      exact ⟨as, es, by rw [h, ho], hf, hc.accept⟩

end Aliases

-- The command that a pending one becomes at the end of a tree, before it is given aliases and
-- variables are bound to its parameters.
def added (p : PendingCommand) (t : Tree) (q : Nat) (name fn : String) : Command where
  index  := t.nodes.length
  name   := name
  help   := p.help
  params := p.params
  func   := some fn
  before := p.before
  after  := p.after
  parent := some (q : Int)
  line   := p.line

section Place

variable {e : Command} (s : b.tree.Sound) (p : PendingCommand) (name fn : String)
variable (he : b.tree.nodes[q]? = some e)
variable (hg : (b.tree.subcommands e).find? (name ∈ ·.callNames) = none)

include s he hg

-- No sibling has its name.
theorem added_fresh : b.tree.Fresh q (added p b.tree q name fn) where
  place    := (List.getElem?_eq_some_iff.mp he).1
  index    := rfl
  parent   := rfl
  children := rfl
  aliases  := List.nodup_nil
  free     := by
    intro d w hd hp hw hwd
    cases List.mem_singleton.mp hw
    have hb : b.tree.Below e d := ⟨hd, by rw [hp, s.index he]⟩
    have hsome := (s.find?_callNames_iff (List.mem_of_getElem? he)).mpr ⟨hb, hwd⟩
    cases hg.symm.trans hsome

theorem place_of_free : b.place p e name fn = (do
    let b' ← claimNames { b with tree := b.tree.grown q (added p b.tree q name fn) } q
      b.tree.nodes.length name p.aliases
    let bound := bindEnv p.env (← b'.tree.node b.tree.nodes.length).params
    return { b' with
      tree := b'.tree.modify b.tree.nodes.length ({ · with params := bound.1 })
    }.reportAll bound.2) := by
  have hi := s.index he
  have hfind := s.findChild_eq_ok (w := name) (List.mem_of_getElem? he)
  have hadd := Tree.addChild_eq_ok (c := { added p b.tree q name fn with index := 0, parent := none }) he hi
  simp only [added] at hadd
  simp only [place, hfind, hg, hi, ok_bind, Option.isSome_none, Bool.false_eq_true, if_false]
  rw [hadd]
  rfl

theorem place_bound : ∃ c ds, b.place p e name fn =
      .ok ⟨b.tree.grown q c, b.diagnostics ++ ds, b.scope, b.headerEnv⟩ ∧
    b.tree.Fresh q c ∧ c.name = name ∧ Bound p fn c ds ∧ Supplied p c ds := by
  let c := added p b.tree q name fn
  obtain ⟨as, es, ho, hf, hc⟩ := claimNames_eq_ok name b.diagnostics b.scope b.headerEnv p.aliases s
    (added_fresh s p name fn he hg)
  have hnode : (b.tree.grown q { c with aliases := as }).node b.tree.nodes.length =
      .ok { c with aliases := as } := Tree.node_eq_ok Tree.getElem?_grown_self
  refine ⟨{ c with aliases := as, params := (bindEnv p.env p.params).1 },
    es ++ (bindEnv p.env p.params).2, ?_, ⟨hf.1, hf.2, hf.3, hf.4, hf.5, hf.6⟩, rfl, ?_, ?_⟩
  case refine_1 =>
    rw [place_of_free s p name fn he hg, show (b.tree.nodes.length : Int) = c.index from rfl, ho, ok_bind]
    simp only [c, added] at hnode ⊢
    simp only [hnode, ok_bind, reportAll, pure_eq_ok, List.append_assoc]
    rw [modify_grown rfl]
  case refine_2 =>
    refine ⟨rfl, rfl, rfl, rfl, rfl, fun d hd => List.mem_append_right _ hd, fun he a ha => ?_,
      List.forall_mem_append.mpr ⟨hc.kept, not_tellsLoss_of_mem_bindEnv⟩⟩
    exact hc.given (fun e h => he e (List.mem_append_left _ h)) a ha
  case refine_3 =>
    refine ⟨rfl, fun w hw => (hc.supplied w hw).resolve_left List.not_mem_nil, ?_⟩
    exact List.forall_mem_append.mpr
      ⟨fun d hd => .inl (hc.lines d hd), fun d hd => .inr (line_of_mem_bindEnv hd)⟩

omit hg

theorem place_eq_ok :
    (∃ path, b.place p e name fn = .ok (b.report p.line (.repeatedCommand path))) ∨
    (∃ c ds, b.place p e name fn =
        .ok ⟨b.tree.grown q c, b.diagnostics ++ ds, b.scope, b.headerEnv⟩ ∧
      b.tree.Fresh q c ∧ c.name = name ∧ Bound p fn c ds ∧ Supplied p c ds) := by
  have hm := List.mem_of_getElem? he
  have hfind := s.findChild_eq_ok (w := name) hm
  cases hg : (b.tree.subcommands e).find? (name ∈ ·.callNames)
  case none   => exact .inr (place_bound s p name fn he hg)
  case some d =>
    obtain ⟨path, hp⟩ := s.joined.path_eq_ok hm
    exact .inl ⟨" ".intercalate (path ++ [name]), by simp [place, hfind, hg, hp]⟩

end Place

theorem descend_eq_ok (s : t.Sound) (h : c ∈ t.nodes) (reached ns : List String) :
    ∃ r, descend t c reached ns = .ok r ∧ ∀ e, r = .ok e → e ∈ t.nodes := by
  induction ns generalizing c reached
  case nil =>
    refine ⟨.ok c, rfl, ?_⟩
    rintro e ⟨⟩
    exact h
  case cons n ns hi =>
    have hfind := s.findChild_eq_ok (w := n) h
    cases hg : (t.subcommands c).find? (n ∈ ·.callNames)
    case none   => exact ⟨.error (reached ++ [n]), by simp [descend, hfind, hg], by simp⟩
    case some d =>
      have hd := s.joined.mem_of_mem_subcommands h (List.mem_of_find?_eq_some hg)
      have ⟨r, hr, he⟩ := hi hd (reached ++ [n])
      exact ⟨r, by simp [descend, hfind, hg, hr], he⟩

-- Outside of a command, only the main function counts.
theorem onFunction_of_scope (h : ∀ p, b.scope ≠ .command p) :
    b.onFunction d = (b.tree.root >>= fun root =>
      if d.text = "main" ∧ root.func = none then
        .ok (b.modifyRoot ({ · with func := some d.text }))
      else .ok b) := by
  unfold onFunction
  refine congrArg _ (funext fun root => ?_)
  split
  case h_1 p hp => exact absurd hp (h p)
  case h_2      => rfl

theorem onFunction_of_command {p : PendingCommand} (hs : b.scope = .command p) :
    b.onFunction d = (b.tree.root >>= fun root =>
      let closed : Builder := { b with scope := .closed }
      if "" ∈ nameParts d.text then .ok (closed.report d.line (.malformedFunction d.text))
      else descend b.tree root [] (nameParts d.text).dropLast >>= fun
        | .error missing =>
          .ok (closed.report d.line (.unknownParent ("::".intercalate missing) d.text))
        | .ok parent     => closed.place p parent ((nameParts d.text).getLastD "") d.text) := by
  unfold onFunction
  simp only [hs, ← List.contains_iff_mem]
  rfl

end Builder

end ShellArgs
