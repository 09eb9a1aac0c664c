import ShellArgs.Proofs.Builder.Run
import ShellArgs.Proofs.Matching

-- Scripts without errors, block by block. The header comes first. Each command begins a block,
-- and for each block there is a node.

namespace ShellArgs

open Outcome

-- A command directive and the directives after it, up to the next one.
structure Block where
  opener : Directive
  body : List Directive

-- A command that holds contents.
structure Command.Holds (c : Command) (k : Contents) : Prop where
  params  : c.params = (Builder.bindEnv k.env k.params).1
  aliases : ∀ a ∈ k.aliases, a.1 ∈ c.aliases
  before  : c.before = k.before
  after   : c.after = k.after

namespace Block

def directives (b : Block) : List Directive :=
  b.opener :: b.body

structure Describes (b : Block) (c : Command) : Prop where
  line     : c.line = b.opener.line
  contents : ∃ k, Contents.Of b.body k ∧ c.Holds k

variable {b : Block} {c : Command}

theorem Describes.adopted {t : Tree} {p i : Nat} {n : String} (h : b.Describes c) :
    b.Describes (t.adopted p n i c) where
  line     := by simp [h.line]
  contents := by
    have ⟨k, hk, hp, ha, hb, hf⟩ := h.contents
    exact ⟨k, hk, by simp [hp], by simpa using ha, by simp [hb], by simp [hf]⟩

-- A function does not matter once the command has been made.
theorem Describes.addFunction {d : Directive} (h : b.Describes c) (hk : d.kind = .function) :
    (Block.mk b.opener (b.body ++ [d])).Describes c where
  line     := h.line
  contents :=
    have ⟨k, hk', hh⟩ := h.contents
    ⟨k, hk'.function hk, hh⟩

end Block

-- Directives as a header and blocks.
structure Layout (ds header : List Directive) (bs : List Block) : Prop where
  eq     : ds = header ++ bs.flatMap Block.directives
  header : ∀ d ∈ header, d.kind ≠ .command
  opener : ∀ b ∈ bs, b.opener.kind = .command
  body   : ∀ b ∈ bs, ∀ d ∈ b.body, d.kind ≠ .command

namespace Layout

variable {ds header : List Directive} {bs : List Block} {b : Block} {d : Directive}

theorem nil : Layout [] [] [] :=
  ⟨rfl, by simp, by simp, by simp⟩

theorem addHeader (l : Layout ds header []) (h : d.kind ≠ .command) :
    Layout (ds ++ [d]) (header ++ [d]) [] where
  eq     := by simp [l.eq]
  header := by
    intro e he
    cases List.mem_append.mp he
    case inl he => exact l.header e he
    case inr he => exact List.mem_singleton.mp he ▸ h
  opener := by simp
  body   := by simp

theorem addOpener (l : Layout ds header bs) (h : d.kind = .command) :
    Layout (ds ++ [d]) header (bs ++ [⟨d, []⟩]) where
  eq     := by simp [l.eq, Block.directives]
  header := l.header
  opener := by
    intro b hb
    cases List.mem_append.mp hb
    case inl hb => exact l.opener b hb
    case inr hb => exact List.mem_singleton.mp hb ▸ h
  body := by
    intro b hb
    cases List.mem_append.mp hb
    case inl hb => exact l.body b hb
    case inr hb => simp [List.mem_singleton.mp hb]

theorem addBody (l : Layout ds header (bs ++ [b])) (h : d.kind ≠ .command) :
    Layout (ds ++ [d]) header (bs ++ [⟨b.opener, b.body ++ [d]⟩]) where
  eq     := by simp [l.eq, Block.directives]
  header := l.header
  opener := by
    intro b' hb
    cases List.mem_append.mp hb
    case inl hb => exact l.opener b' (List.mem_append_left _ hb)
    case inr hb =>
      rw [List.mem_singleton.mp hb]
      exact l.opener b (List.mem_append_right _ List.mem_cons_self)
  body := by
    intro b' hb
    cases List.mem_append.mp hb
    case inl hb => exact l.body b' (List.mem_append_left _ hb)
    case inr hb =>
      intro e he
      rw [List.mem_singleton.mp hb] at he
      cases List.mem_append.mp he
      case inl he => exact l.body b (List.mem_append_right _ List.mem_cons_self) e he
      case inr he => exact List.mem_singleton.mp he ▸ h

end Layout

namespace Builder

open Block

-- The commands below the root that blocks have led to, depending on where the last one ends.
inductive Reached : Scope → List Block → List Command → Prop
  | header : Reached .header [] []
  | command {p : PendingCommand} {last : Block} (h : List.Forall₂ Describes bs cs)
      (hl : p.line = last.opener.line) (hc : Contents.Of last.body p.contents) :
      Reached (.command p) (bs ++ [last]) cs
  | closed {last : Block} (h : List.Forall₂ Describes (bs ++ [last]) cs) :
      Reached .closed (bs ++ [last]) cs

-- The state of a builder after directives without errors.
def Follows (ds : List Directive) (b : Builder) : Prop :=
  ∃ header bs r cs, Layout ds header bs ∧ b.tree.nodes = r :: cs ∧
    Contents.Of header (r.headerContents b.headerEnv) ∧ Reached b.scope bs cs

theorem Reached.forall₂ {sc : Scope} {bs : List Block} {cs : List Command} (h : Reached sc bs cs)
    (hs : ∀ p, sc ≠ .command p) : List.Forall₂ Describes bs cs := by
  cases h
  case header  => exact .nil
  case command => exact absurd rfl (hs _)
  case closed h => exact h

namespace Follows

variable {ds : List Directive} {b b' : Builder} {d : Directive}

theorem empty : Follows [] {} :=
  ⟨[], [], _, [], .nil, rfl, .nil, .header⟩

theorem addFunction (h : Follows ds b) (hk : d.kind = .function) (hs : ∀ p, b.scope ≠ .command p) :
    Follows (ds ++ [d]) b := by
  have ⟨header, bs, r, cs, hl, hn, hh, hr⟩ := h
  have hne : d.kind ≠ .command := by simp [hk]
  generalize hsc : b.scope = sc at hr
  cases hr
  case header  => exact ⟨header ++ [d], [], r, [], hl.addHeader hne, hn, hh.function hk, hsc ▸ .header⟩
  case command => exact absurd hsc (hs _)
  case closed bs last h =>
    have ⟨cs', c, he, hf, hd⟩ := Matching.of_forall₂_concat_left h
    refine ⟨header, _, r, cs, hl.addBody hne, hn, hh, hsc ▸ .closed ?_⟩
    rw [he]
    exact Matching.forall₂_concat hf (hd.addFunction hk)

-- What nobody looks at may change in the root.
theorem modifyRoot (h : Follows ds b) {f : Command → Command}
    (hf : ∀ r : Command, (f r).headerContents b.headerEnv = r.headerContents b.headerEnv) :
    Follows ds (b.modifyRoot f) := by
  have ⟨header, bs, r, cs, hl, hn, hh, hr⟩ := h
  exact ⟨header, bs, f r, cs, hl, by simp [Builder.modifyRoot, Tree.modify, hn], hf r ▸ hh, hr⟩

-- A new command belongs to the last block.
theorem addCommand (h : Follows ds b) (hs : b.scope = .command p) (hk : d.kind = .function)
    (hc : Bound p d.text c es) {problems : List Diagnostic}
    (he : ∀ e ∈ es, e.isError = false) (hq : q < b.tree.nodes.length) :
    Follows (ds ++ [d]) ⟨b.tree.grown q c, problems, .closed, b.headerEnv⟩ := by
  have ⟨header, bs, r, cs, hl, hn, hh, hr⟩ := h
  have hne : d.kind ≠ .command := by simp [hk]
  rw [hs] at hr
  cases hr
  case command bs last hline hcon hf =>
    have hd : (Block.mk last.opener (last.body ++ [d])).Describes c :=
      ⟨hc.line.trans hline, _, hcon.function hk, hc.params, hc.aliases he, hc.before, hc.after⟩
    let f := b.tree.adopted q c.name q
    have hnodes : (b.tree.grown q c).nodes = (r :: cs).modify q f ++ [c] := by
      rw [← hn]
      rfl
    cases q
    case zero =>
      refine ⟨header, _, f r, cs ++ [c], hl.addBody hne, hnodes, ?_, .closed ?_⟩
      · simpa [f, Command.headerContents] using hh
      · exact Matching.forall₂_concat hf hd
    case succ q =>
      refine ⟨header, _, r, cs.modify q f ++ [c], hl.addBody hne, hnodes, hh, .closed ?_⟩
      exact Matching.forall₂_concat (Matching.forall₂_modify hf fun _ _ h => h.adopted) hd

theorem step (h : Follows ds b) (hs : Step b d b') (he : ∀ e ∈ b'.diagnostics, e.isError = false) :
    Follows (ds ++ [d]) b' := by
  cases hs
  case refused e he' =>
    have := he e (by simp [reportAll])
    simp [he'.1] at this
  case header hs hr₀ _ hd _ =>
    obtain ⟨header, bs, r, cs, hl, hn, hh, hr⟩ := h
    rw [hs] at hr
    cases hr
    rw [hn] at hr₀
    cases hr₀
    exact ⟨header ++ [d], [], _, [], hl.addHeader hd.kind_ne.1, by simp [Tree.modify, hn], hh.add hd,
      .header⟩
  case pending hs hline hd =>
    obtain ⟨header, bs, r, cs, hl, hn, hh, hr⟩ := h
    rw [hs] at hr
    cases hr
    case command bs last hline' hc hf =>
      exact ⟨header, _, r, cs, hl.addBody hd.kind_ne.1, hn, hh,
        .command hf (hline.trans hline') (hc.add hd)⟩
  case opened hk hs =>
    obtain ⟨header, bs, r, cs, hl, hn, hh, hr⟩ := h
    exact ⟨header, _, r, cs, hl.addOpener hk, hn, hh, .command (hr.forall₂ hs) rfl .nil⟩
  case reopened p hk hs =>
    have := he (Problem.missingFunction.located p.line) (by simp [report])
    simp [Diagnostic.isError, Problem.located, Problem.severity] at this
  case passed hk hs => exact h.addFunction hk hs
  case main hk hs   => exact (h.addFunction hk hs).modifyRoot fun _ => rfl
  case unnamed e he' =>
    have := he e (by simp [reportAll])
    simp [he'.1] at this
  case named hs _ hf hc =>
    exact h.addCommand hs ‹_› hc (fun e hm => he e (List.mem_append_right _ hm)) hf.place

end Follows

end Builder

-- A script without errors and its tree, block by block.
structure Described (ds header : List Directive) (bs : List Block) (t : Tree) : Prop where
  layout : Layout ds header bs
  nodes  : ∃ r cs, t.nodes = r :: cs ∧ (∃ k, Contents.Of header k ∧ r.Holds k) ∧
    List.Forall₂ Block.Describes bs cs

theorem Tree.described_of_ofDirectives {ds : List Directive} {t : Tree} {problems : List Diagnostic}
    (h : Tree.ofDirectives ds = .ok (t, problems)) (he : ∀ d ∈ problems, d.isError = false) :
    ∃ header bs, Described ds header bs t := by
  let P (done : List Directive) (b : Builder) : Prop :=
    (∀ e ∈ b.diagnostics, e.isError = false) → Builder.Follows done b
  have hstep : ∀ {done d b b'}, b.tree.Sound → Builder.Step b d b' → P done b → P (done ++ [d]) b' := by
    intro done d b b' _ hs hf he
    obtain ⟨es, hes⟩ := hs.diagnostics_eq
    exact (hf fun e hm => he e (hes ▸ List.mem_append_left _ hm)).step hs he
  obtain ⟨b, hb, s, hf⟩ := Builder.foldlM_feed P (fun _ => Builder.Follows.empty) hstep ds
  obtain ⟨r, hr, _⟩ := s.root
  rw [Tree.ofDirectives, hb, ok_bind, Builder.finish_eq_ok s hr] at h
  cases h
  obtain ⟨header, bs, r', cs, hl, hn, hh, hreached⟩ := hf fun e hm =>
    he e (List.mem_append_left _ (List.mem_append_left _ hm))
  have hscope : ∀ p, b.scope ≠ .command p := by
    intro p hs
    have hm : Builder.Problem.missingFunction.located p.line ∈ b.endProblems := by
      simp [Builder.endProblems, hs]
    have := he _ (List.mem_append_left _ (List.mem_append_right _ hm))
    simp [Diagnostic.isError, Builder.Problem.located, Builder.Problem.severity] at this
  have hr' : r' = r := by simpa [hn] using hr
  subst hr'
  let r : Command := { r' with params := (Builder.bindEnv b.headerEnv r'.params).1 }
  have hn' : (b.tree.modify 0 fun _ => r).nodes = r :: cs := by simp [Tree.modify, hn]
  refine ⟨header, bs, hl, r, cs, hn', ⟨_, hh, ?_⟩, hreached.forall₂ hscope⟩
  exact ⟨rfl, by simp [Command.headerContents], rfl, rfl⟩

end ShellArgs
