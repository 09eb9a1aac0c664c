import ShellArgs.Proofs.Builder.Run
import ShellArgs.Proofs.Tree.Located

-- Where the lines come from that a builder reports and keeps. They are the lines of directives, and
-- a function only gets a report if it names no command.

namespace ShellArgs

open Outcome

structure PendingCommand.Located (P : Int → Prop) (p : PendingCommand) : Prop where
  line    : P p.line
  aliases : ∀ a ∈ p.aliases, P a.2
  params  : ∀ q ∈ p.params, P q.line
  env     : ∀ e ∈ p.env, P e.line

-- The line of one of the directives that are no functions.
def Tagged (ds : List Directive) (line : Int) : Prop :=
  ∃ d ∈ ds, d.kind ≠ .function ∧ d.line = line

def Traced (ds : List Directive) (x : Diagnostic) : Prop :=
  Tagged ds x.line ∨ ∃ d ∈ ds, d.Refuses x

structure Builder.Located (ds : List Directive) (b : Builder) : Prop where
  tree        : b.tree.Located (Tagged ds)
  pending     : ∀ p, b.scope = .command p → p.Located (Tagged ds)
  headerEnv   : ∀ e ∈ b.headerEnv, Tagged ds e.line
  diagnostics : ∀ x ∈ b.diagnostics, Traced ds x

namespace Tree.Located

variable {P : Int → Prop} {t : Tree} {c : Command}

theorem empty : Tree.empty.Located P := by
  intro c hc
  cases List.mem_singleton.mp hc
  exact ⟨by simp, by simp⟩

theorem modify (h : t.Located P) {f : Command → Command} (hf : ∀ c, c.Located P → (f c).Located P)
    (p : Nat) : (t.modify p f).Located P :=
  forall_mem_modify h hf p

theorem grown (h : t.Located P) (hc : c.Located P) (p : Nat) : (t.grown p c).Located P :=
  forall_mem_grown h (fun _ _ hd => { hd with }) hc p

end Tree.Located

namespace Directive

variable {d : Directive} {P : Int → Prop}

theorem Alters.located {c c' : Command} (h : d.Alters c c') (hd : P d.line) (hc : c.Located P) :
    c'.Located P := by
  cases h
  case param k _ hr =>
    have hp : P _ := Descriptor.line_of_read hr ▸ hd
    exact { hc with params := Builder.forall_mem_insert hp hc.params }
  all_goals exact { hc with }

theorem Extends.located {p p' : PendingCommand} (h : d.Extends p p') (hd : P d.line)
    (hp : p.Located P) : p'.Located P := by
  cases h
  case aliases =>
    exact { hp with
      aliases := List.forall_mem_append.mpr ⟨hp.aliases, List.forall_mem_map.mpr fun _ _ => hd⟩ }
  case param k _ hr =>
    have hq : P _ := Descriptor.line_of_read hr ▸ hd
    exact { hp with params := Builder.forall_mem_insert hq hp.params }
  case env =>
    exact { hp with env := List.forall_mem_append.mpr ⟨hp.env, List.forall_mem_singleton.mpr hd⟩ }
  all_goals exact { hp with }

end Directive

namespace Builder

variable {ds : List Directive} {b b' : Builder} {d : Directive} {p : PendingCommand} {c : Command}
variable {P : Int → Prop}

theorem located_bindEnv {es : List EnvBinding} {ps : List Param} (h : ∀ p ∈ ps, P p.line) :
    ∀ p ∈ (bindEnv es ps).1, P p.line :=
  forall_mem_bindEnv (fun _ _ _ hp => hp) h

theorem Bound.located {function : String} {problems : List Diagnostic}
    (hc : Bound p function c problems) (hp : p.Located P) : c.Located P where
  line _ := hc.line ▸ hp.line
  params := hc.params ▸ located_bindEnv hp.params

theorem Supplied.located {problems : List Diagnostic} (hx : Supplied p c problems)
    (hp : p.Located P) : ∀ x ∈ problems, P x.line := by
  intro x h
  obtain ⟨a, ha, hl⟩ | ⟨e, he, hl⟩ := hx.lines x h
  case inl => exact hl ▸ hp.aliases a ha
  case inr => exact hl ▸ hp.env e he

namespace Located

theorem reportAll (h : b.Located ds) {xs : List Diagnostic} (hx : ∀ x ∈ xs, Traced ds x) :
    (b.reportAll xs).Located ds :=
  { h with diagnostics := List.forall_mem_append.mpr ⟨h.diagnostics, hx⟩ }

theorem report (h : b.Located ds) {line : Int} (hl : Tagged ds line) (pr : Problem) :
    (b.report line pr).Located ds :=
  h.reportAll (List.forall_mem_singleton.mpr (.inl hl))

theorem modifyRoot (h : b.Located ds) {f : Command → Command}
    (hf : ∀ c, c.Located (Tagged ds) → (f c).Located (Tagged ds)) : (b.modifyRoot f).Located ds :=
  { h with tree := h.tree.modify hf 0 }

theorem pend (h : b.Located ds) (hp : p.Located (Tagged ds)) :
    Builder.Located ds { b with scope := .command p } :=
  { h with pending := by rintro _ ⟨⟩; exact hp }

theorem close (h : b.Located ds) : Builder.Located ds { b with scope := .closed } :=
  { h with pending := nofun }

theorem effect (h : b.Located ds) (hd : d ∈ ds) (he : Effect b d b') : b'.Located ds := by
  have htag (hk : d.kind ≠ .function) : Tagged ds d.line := ⟨d, hd, hk, rfl⟩
  have hopen (hk : d.kind = .command) :
      PendingCommand.Located (Tagged ds) { line := d.line, help := d.text } :=
    ⟨htag (by simp [hk]), by simp, by simp, by simp⟩
  cases he
  case refused hk x hl _ =>
    exact h.reportAll (List.forall_mem_singleton.mpr (.inl (hl ▸ htag hk.2)))
  case root hr ha xs hx =>
    have hd := htag (ha.adds []).kind_ne.2
    have hc := ha.located hd (h.tree _ (List.mem_of_getElem? hr))
    refine modifyRoot (h.reportAll fun x hm => ?_) fun _ _ => hc
    exact .inl ((hx x hm).1 ▸ hd)
  case headerEnv hk _ =>
    have hd := htag (by simp [hk])
    exact { h with
      headerEnv := List.forall_mem_append.mpr ⟨h.headerEnv, List.forall_mem_singleton.mpr hd⟩ }
  case pending hs he => exact h.pend (he.located (htag he.adds.kind_ne.2) (h.pending _ hs))
  case opened hk _      => exact h.pend (hopen hk)
  case reopened hk hs   => exact (h.report (h.pending _ hs).line _).pend (hopen hk)
  case passed           => exact h
  case main             => exact h.modifyRoot fun _ hc => { hc with }
  case unnamed hx       => exact h.close.reportAll (List.forall_mem_singleton.mpr (.inr ⟨d, hd, hx⟩))
  case repeated hs path => exact h.close.report (h.pending _ hs).line _
  case named hs _ _ hc hx =>
    have hp := h.pending _ hs
    refine ⟨h.tree.grown (hc.located hp) _, nofun, h.headerEnv, ?_⟩
    exact List.forall_mem_append.mpr ⟨h.diagnostics, fun x hm => .inl (hx.located hp x hm)⟩

theorem finish {t : Tree} {problems : List Diagnostic} (h : b.Located ds) (hs : b.tree.Sound)
    (hb : b.finish = .ok (t, problems)) :
    t.Located (Tagged ds) ∧ ∀ x ∈ problems, Traced ds x := by
  have ⟨r, hr, _⟩ := hs.root
  have hroot := h.tree r (List.mem_of_getElem? hr)
  rw [finish_eq_ok hs hr] at hb
  cases hb
  let bound : Command := { r with params := (bindEnv b.headerEnv r.params).1 }
  have hbound : bound.Located (Tagged ds) := { hroot with params := located_bindEnv hroot.params }
  refine ⟨h.tree.modify (fun _ _ => hbound) 0, ?_⟩
  refine List.forall_mem_append.mpr ⟨List.forall_mem_append.mpr ⟨h.diagnostics, ?_⟩, fun x hx => ?_⟩
  case refine_1 =>
    unfold endProblems
    split
    case h_1 p hp => exact List.forall_mem_singleton.mpr (.inl (h.pending p hp).line)
    case h_2      => simp
  case refine_2 =>
    have ⟨e, he, hl⟩ := line_of_mem_bindEnv hx
    exact .inl (hl ▸ h.headerEnv e he)

end Located

end Builder

theorem Tree.located_ofDirectives {ds : List Directive} {t : Tree} {problems : List Diagnostic}
    (h : ofDirectives ds = .ok (t, problems)) :
    t.Located (Tagged ds) ∧ ∀ x ∈ problems, Traced ds x := by
  have ⟨b, hb, hs, hl⟩ := Builder.foldlM_effect (fun done b => (∀ d ∈ done, d ∈ ds) → b.Located ds)
    (fun _ => ⟨.empty, nofun, nofun, nofun⟩)
    (fun _ he hi hds =>
      have ⟨hdone, hd⟩ := List.forall_mem_append.mp hds
      (hi hdone).effect (List.forall_mem_singleton.mp hd) he) ds
  rw [ofDirectives, hb] at h
  exact (hl fun _ hd => hd).finish hs h

end ShellArgs
