import ShellArgs.Proofs.Builder.Effect
import ShellArgs.Proofs.Tree.Validation

namespace ShellArgs

open Outcome

namespace Builder

variable {b b' : Builder} {d : Directive} {r : Command}

-- The lines of reports, and the texts that no step looks at, are left out.
theorem Effect.step (s : b.tree.Sound) (h : Effect b d b') : Step b d b' := by
  cases h
  case refused hk x _ hx => exact .refused hk x hx
  case root hs hr h ds hd =>
    have := Step.header ds hs hr h.alike (h.adds b.headerEnv) fun x hx => (hd x hx).2
    rwa [← hs] at this
  case headerEnv hs hk he =>
    have ⟨r, hr, _⟩ := s.root
    have := Step.header [] hs hr (Command.Alike.refl r) (Contents.Adds.env hk he) (by simp)
    rwa [List.append_nil, Tree.modify_self hr, ← hs] at this
  case pending hs h           => exact .pending hs h.line_eq h.adds
  case opened hk hs           => exact .opened hk hs
  case reopened hk hs         => exact .reopened hk hs
  case passed hk hs           => exact .passed hk hs
  case main hk hs             => exact .main hk hs
  case unnamed hk hs hx       => exact .unnamed hk hs _ hx.tellsLoss
  case repeated hk hs path    => exact .unnamed hk hs _ ⟨rfl, Problem.tellsLoss_located ..⟩
  case named hk hs hl hf hc _ => exact .named hk hs hl hf hc

-- No directive stops a builder.
theorem feed_step (s : b.tree.Sound) (d : Directive) :
    ∃ b', b.feed d = .ok b' ∧ Step b d b' :=
  have ⟨b', hb', h⟩ := feed_effect s d
  ⟨b', hb', h.step s⟩

namespace Step

theorem sound (s : b.tree.Sound) (h : Step b d b') : b'.tree.Sound := by
  cases h
  case refused  => exact s
  case header hr ha _ _ =>
    refine s.modify fun c hc => ?_
    cases hr.symm.trans hc
    exact ha
  case pending  => exact s
  case opened   => exact s
  case reopened => exact s
  case passed   => exact s
  case main     => exact s.modify fun c _ => ⟨rfl, rfl, rfl, rfl, rfl⟩
  case unnamed  => exact s
  case named hf hc => exact hf.sound s

-- Problems are never forgotten.
theorem diagnostics_eq (h : Step b d b') : ∃ ds, b'.diagnostics = b.diagnostics ++ ds := by
  cases h
  case refused  => exact ⟨_, rfl⟩
  case header   => exact ⟨_, rfl⟩
  case pending  => exact ⟨[], by simp⟩
  case opened   => exact ⟨[], by simp⟩
  case reopened => exact ⟨_, rfl⟩
  case passed   => exact ⟨[], by simp⟩
  case main     => exact ⟨[], by simp [modifyRoot]⟩
  case unnamed  => exact ⟨_, rfl⟩
  case named    => exact ⟨_, rfl⟩

end Step

-- What is reported at the end of a script, but for its variables.
def endProblems (b : Builder) : List Diagnostic :=
  match b.scope with
  | .command p => [Problem.missingFunction.located p.line]
  | _          => []

theorem finish_eq_ok (s : b.tree.Sound) (hr : b.tree.nodes[0]? = some r) :
    b.finish = .ok (b.tree.modify 0 fun _ => { r with params := (bindEnv b.headerEnv r.params).1 },
      b.diagnostics ++ b.endProblems ++ (bindEnv b.headerEnv r.params).2) := by
  have ⟨r', hroot, hr', _⟩ := s.joined.root_eq_ok
  cases hr.symm.trans hr'
  unfold finish endProblems
  cases hs : b.scope
  case command p =>
    simp [report, hroot, reportAll, modifyRoot, Tree.modify_eq_modify_const hr]
  case header =>
    simp [hroot, reportAll, modifyRoot, Tree.modify_eq_modify_const hr]
  case closed =>
    simp [hroot, reportAll, modifyRoot, Tree.modify_eq_modify_const hr]

-- A property that directives keep holds at the end of every run.
theorem foldlM_effect (P : List Directive → Builder → Prop) (hb : P [] {})
    (hf : ∀ {done d b b'}, b.tree.Sound → Effect b d b' → P done b → P (done ++ [d]) b')
    (ds : List Directive) :
    ∃ b, ds.foldlM feed {} = .ok b ∧ b.tree.Sound ∧ P ds b := by
  refine foldlM_ok (fun done b => b.tree.Sound ∧ P done b) ⟨Tree.empty_sound, hb⟩ ?_
  rintro done d b ⟨s, hp⟩
  have ⟨b', hb', h⟩ := feed_effect s d
  exact ⟨b', hb', (h.step s).sound s, hf s h hp⟩

theorem foldlM_feed (P : List Directive → Builder → Prop) (hb : P [] {})
    (hf : ∀ {done d b b'}, b.tree.Sound → Step b d b' → P done b → P (done ++ [d]) b') :
    ∀ ds : List Directive, ∃ b, ds.foldlM feed {} = .ok b ∧ b.tree.Sound ∧ P ds b :=
  foldlM_effect P hb fun s h => hf s (h.step s)

end Builder

theorem Tree.ofDirectives_eq_ok (ds : List Directive) :
    ∃ t problems, Tree.ofDirectives ds = .ok (t, problems) ∧ t.Sound := by
  have ⟨b, hb, s, _⟩ := Builder.foldlM_feed (fun _ _ => True) trivial (fun _ _ _ => trivial) ds
  have ⟨r, hr, _⟩ := s.root
  refine ⟨_, _, by rw [Tree.ofDirectives, hb, ok_bind, Builder.finish_eq_ok s hr], ?_⟩
  refine s.modify fun c hc => ?_
  cases hr.symm.trans hc
  exact ⟨rfl, rfl, rfl, rfl, rfl⟩

-- Whatever a script says, its tree is sound. What validation finds in it concerns parameters,
-- or it is an alias that merely repeats the name of its command.
theorem Tree.ofDirectives_sound (ds : List Directive) :
    ∃ t problems fs, Tree.ofDirectives ds = .ok (t, problems) ∧ t.Sound ∧
      t.findings = .ok fs ∧
      t.validate = .ok (Diagnostic.sorted (fs.map Finding.diagnostic)) ∧
      ∀ f ∈ fs, f.violation.isOfStructure = false ∧
        (f.violation.isOfAliases → f.violation.severity = .warning) := by
  have ⟨t, problems, ht, s⟩ := Tree.ofDirectives_eq_ok ds
  have ⟨fs, hfs, hp⟩ := s.findings_eq_ok
  refine ⟨t, problems, fs, ht, s, hfs, by rw [Tree.validate, hfs]; rfl, ?_⟩
  intro f hf
  cases hp f hf
  case inl h =>
    have ⟨hs, ha⟩ : f.violation.isOfStructure = false ∧ f.violation.isOfAliases = false := by
      simpa [Violation.isOfParams] using h
    exact ⟨hs, by simp [ha]⟩
  case inr h =>
    have ⟨w, hw⟩ := h
    rw [hw]
    exact ⟨rfl, fun _ => rfl⟩

end ShellArgs
