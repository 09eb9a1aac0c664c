import ShellArgs.Proofs.Builder.Step

-- All that a directive can do to a builder, said once and in full: the steps of `Step` with the
-- lines of reports and all texts. What holds along a run is proved by cases on this, without another
-- look at how the directives are handled.

namespace ShellArgs

open Outcome

namespace Directive

variable (d : Directive)

-- What a directive in the header makes of the root.
inductive Alters (c : Command) : Command → Prop
  | help (hk : d.kind = .describe) : Alters c { c with help := d.text }
  | version (hk : d.kind = .version) : Alters c { c with version := some d.text }
  | author (hk : d.kind = .author) : Alters c { c with author := some d.text }
  | param (k : ParamKind) (hk : d.kind = k.directive)
      (hr : Descriptor.read k d.text d.line = .ok p) : Alters c (c.addParam p)
  | before (hk : d.kind = .before) (hb : c.before = none) :
      Alters c { c with before := some d.text }
  | after (hk : d.kind = .after) (ha : c.after = none) : Alters c { c with after := some d.text }

-- What a directive makes of the command that is pending.
inductive Extends (p : PendingCommand) : PendingCommand → Prop
  | help (hk : d.kind = .describe) : Extends p { p with help := d.text }
  | aliases (hk : d.kind = .aliases) :
      Extends p { p with
        aliases := p.aliases ++
          (aliasNames d.text).map fun s => (String.ofList s, d.line) }
  | param (k : ParamKind) (hk : d.kind = k.directive)
      (hr : Descriptor.read k d.text d.line = .ok q) :
      Extends p { p with params := q.insert p.params }
  | env (hk : d.kind = .env) (he : Builder.envBinding? d.text = some (var, target)) :
      Extends p { p with env := p.env ++ [⟨var, target, d.line⟩] }
  | before (hk : d.kind = .before) (hb : p.before = none) :
      Extends p { p with before := some d.text }
  | after (hk : d.kind = .after) (ha : p.after = none) : Extends p { p with after := some d.text }

-- A report on a function that no command is named by.
inductive Refuses : Diagnostic → Prop
  | malformed (hk : d.kind = .function) :
      Refuses ((Builder.Problem.malformedFunction d.text).located d.line)
  | orphan (hk : d.kind = .function) (parent : String) :
      Refuses ((Builder.Problem.unknownParent parent d.text).located d.line)

variable {d}

theorem Alters.alike {c c' : Command} (h : d.Alters c c') : c.Alike c' := by
  cases h <;> exact ⟨rfl, rfl, rfl, rfl, rfl⟩

theorem Alters.adds {c c' : Command} (h : d.Alters c c') (env : List EnvBinding) :
    (c.headerContents env).Adds d (c'.headerContents env) := by
  cases h
  case help hk       => exact .text (.inl hk)
  case version hk    => exact .text (.inr (.inl hk))
  case author hk     => exact .text (.inr (.inr hk))
  case param k hk hr => exact .param k hk hr
  case before hk hb  => exact .before hk hb
  case after hk ha   => exact .after hk ha

theorem Extends.adds {p p' : PendingCommand} (h : d.Extends p p') :
    p.contents.Adds d p'.contents := by
  cases h
  case help hk       => exact .text (.inl hk)
  case aliases hk    => exact .aliases hk
  case param k hk hr => exact .param k hk hr
  case env hk he     => exact .env hk he
  case before hk hb  => exact .before hk hb
  case after hk ha   => exact .after hk ha

theorem Extends.line_eq {p p' : PendingCommand} (h : d.Extends p p') : p'.line = p.line := by
  cases h <;> rfl

theorem Refuses.tellsLoss {x : Diagnostic} (h : d.Refuses x) :
    x.isError = true ∧ x.tellsLoss = true := by
  cases h <;> exact ⟨rfl, Builder.Problem.tellsLoss_located ..⟩

end Directive

namespace Builder

-- What a directive leaves of a builder. A report on a directive has its line.
inductive Effect (b : Builder) (d : Directive) : Builder → Prop
  | refused (hk : d.kind ≠ .command ∧ d.kind ≠ .function) (x : Diagnostic) (hl : x.line = d.line)
      (hx : x.isError = true ∧ x.tellsLoss = false) : Effect b d (b.reportAll [x])
  | root (hs : b.scope = .header) (hr : b.tree.nodes[0]? = some r) (h : d.Alters r r')
      (ds : List Diagnostic) (hd : ∀ x ∈ ds, x.line = d.line ∧ x.isError = false) :
      Effect b d ((b.reportAll ds).modifyRoot fun _ => r')
  | headerEnv (hs : b.scope = .header) (hk : d.kind = .env)
      (he : envBinding? d.text = some (var, target)) :
      Effect b d { b with headerEnv := b.headerEnv ++ [⟨var, target, d.line⟩] }
  | pending (hs : b.scope = .command p) (h : d.Extends p p') :
      Effect b d { b with scope := .command p' }
  | opened (hk : d.kind = .command) (hs : ∀ p, b.scope ≠ .command p) :
      Effect b d { b with scope := .command { line := d.line, help := d.text } }
  | reopened (hk : d.kind = .command) (hs : b.scope = .command p) :
      Effect b d { b.report p.line .missingFunction with
        scope := .command { line := d.line, help := d.text } }
  | passed (hk : d.kind = .function) (hs : ∀ p, b.scope ≠ .command p) : Effect b d b
  | main (hk : d.kind = .function) (hs : ∀ p, b.scope ≠ .command p) :
      Effect b d (b.modifyRoot ({ · with func := some d.text }))
  | unnamed (hk : d.kind = .function) (hs : b.scope = .command p) (hx : d.Refuses x) :
      Effect b d ({ b with scope := .closed }.reportAll [x])
  -- The command is reported in place of the function that names it.
  | repeated (hk : d.kind = .function) (hs : b.scope = .command p) (path : String) :
      Effect b d ({ b with scope := .closed }.report p.line (.repeatedCommand path))
  | named (hk : d.kind = .function) (hs : b.scope = .command p)
      (hl : Leads b.tree d.text q c.name) (hf : b.tree.Fresh q c) (hc : Bound p d.text c ds)
      (hx : Supplied p c ds) :
      Effect b d ⟨b.tree.grown q c, b.diagnostics ++ ds, .closed, b.headerEnv⟩

variable {b : Builder} {d : Directive} {r : Command}

@[simp] theorem reportAll_nil (b : Builder) : b.reportAll [] = b := by
  simp [reportAll]

-- A directive that cannot stand where it is, or that cannot be read.
theorem report_effect {pr : Problem} (hk : d.kind ≠ .command ∧ d.kind ≠ .function)
    (h : pr.severity = .error ∧ pr.isLoss = false) : Effect b d (b.report d.line pr) :=
  .refused hk (pr.located d.line) rfl
    ⟨by simp [Diagnostic.isError, Problem.located, h.1], by rw [Problem.tellsLoss_located, h.2]⟩

theorem modifyRoot_eq (h : b.tree.nodes[0]? = some r) (f : Command → Command) :
    b.modifyRoot f = b.modifyRoot fun _ => f r := by
  simp only [modifyRoot, Tree.modify_eq_modify_const h]

theorem modifyRoot_effect (hs : b.scope = .header) (hr : b.tree.nodes[0]? = some r)
    {f : Command → Command} (h : d.Alters r (f r)) : Effect b d (b.modifyRoot f) := by
  have := Effect.root hs hr h [] (by simp)
  rwa [reportAll_nil, ← modifyRoot_eq hr] at this

section Handlers

theorem onDescribe_effect (s : b.tree.Sound) (hk : d.kind = .describe) :
    ∃ b', b.onDescribe d = .ok b' ∧ Effect b d b' := by
  have ⟨r, hroot, hr, _⟩ := s.joined.root_eq_ok
  unfold onDescribe
  split
  case h_1 => exact ⟨_, rfl, report_effect (by simp [hk]) ⟨rfl, rfl⟩⟩
  case h_2 hs => exact ⟨_, rfl, .pending hs (.help hk)⟩
  case h_3 hs =>
    rw [hroot, ok_bind]
    refine ⟨_, rfl, ?_⟩
    split
    case isTrue => exact modifyRoot_effect hs hr (f := ({ · with help := d.text })) (.help hk)
    case isFalse =>
      have := Effect.root hs hr (.help hk) [Problem.repeatedDescription.located d.line]
        (by simp [Diagnostic.isError, Problem.located, Problem.severity])
      rwa [← modifyRoot_eq (b := b.reportAll _) hr ({ · with help := d.text })] at this

theorem onMetadata_effect (s : b.tree.Sound) (hk : d.kind = .version ∨ d.kind = .author) :
    Effect b d (b.onMetadata d) := by
  have ⟨r, _, hr, _⟩ := s.joined.root_eq_ok
  unfold onMetadata
  split
  case h_2 => exact report_effect (by obtain hk | hk := hk <;> simp [hk]) ⟨rfl, rfl⟩
  case h_1 hs =>
    split
    case isTrue hv =>
      exact modifyRoot_effect hs hr (f := ({ · with version := some d.text })) (.version hv)
    case isFalse hv =>
      exact modifyRoot_effect hs hr (f := ({ · with author := some d.text }))
        (.author (hk.resolve_left hv))

theorem onCommand_effect (hk : d.kind = .command) : Effect b d (b.onCommand d) := by
  cases hs : b.scope
  case command p => simpa [onCommand, hs] using Effect.reopened hk hs
  case header    => simpa [onCommand, hs] using Effect.opened hk (by simp [hs])
  case closed    => simpa [onCommand, hs] using Effect.opened hk (by simp [hs])

theorem onAliases_effect (hk : d.kind = .aliases) : Effect b d (b.onAliases d) := by
  unfold onAliases
  split
  case h_1 => exact report_effect (by simp [hk]) ⟨rfl, rfl⟩
  case h_2 => exact report_effect (by simp [hk]) ⟨rfl, rfl⟩
  case h_3 hs =>
    simpa [Directive.aliasNames, Function.comp_def] using Effect.pending hs (.aliases hk)

theorem onParam_effect (s : b.tree.Sound) {k : ParamKind} (hk : d.kind = k.directive) :
    Effect b d (b.onParam d k) := by
  have ⟨r, _, hr, _⟩ := s.joined.root_eq_ok
  have hne : d.kind ≠ .command ∧ d.kind ≠ .function := by
    cases k <;> simp [hk, ParamKind.directive]
  unfold onParam
  cases hs : b.scope
  case closed => exact report_effect hne ⟨rfl, rfl⟩
  case header =>
    cases hp : Descriptor.read k d.text d.line
    case error f => exact .refused hne _ rfl ⟨rfl, rfl⟩
    case ok p    => exact modifyRoot_effect hs hr (f := (·.addParam p)) (.param k hk hp)
  case command c =>
    cases hp : Descriptor.read k d.text d.line
    case error f => exact .refused hne _ rfl ⟨rfl, rfl⟩
    case ok p    => exact .pending hs (.param k hk hp)

theorem onEnv_effect (hk : d.kind = .env) : Effect b d (b.onEnv d) := by
  unfold onEnv
  cases hs : b.scope
  case closed => exact report_effect (by simp [hk]) ⟨rfl, rfl⟩
  case header =>
    cases he : envBinding? d.text
    case none   => exact report_effect (by simp [hk]) ⟨rfl, rfl⟩
    case some a =>
      have := Effect.headerEnv hs hk he
      rwa [hs] at this
  case command p =>
    cases he : envBinding? d.text
    case none   => exact report_effect (by simp [hk]) ⟨rfl, rfl⟩
    case some a => exact .pending hs (.env hk he)

theorem onBefore_effect (s : b.tree.Sound) (hk : d.kind = .before) :
    ∃ b', b.onBefore d = .ok b' ∧ Effect b d b' := by
  have ⟨r, hroot, hr, _⟩ := s.joined.root_eq_ok
  unfold onBefore
  split
  case h_1 => exact ⟨_, rfl, report_effect (by simp [hk]) ⟨rfl, rfl⟩⟩
  case h_2 p hs =>
    cases hb : p.before
    case some f => exact ⟨_, rfl, report_effect (by simp [hk]) ⟨rfl, rfl⟩⟩
    case none   => exact ⟨_, rfl, .pending hs (.before hk hb)⟩
  case h_3 hs =>
    rw [hroot, ok_bind]
    cases hb : r.before
    case some f => exact ⟨_, rfl, report_effect (by simp [hk]) ⟨rfl, rfl⟩⟩
    case none   =>
      refine ⟨_, rfl, ?_⟩
      exact modifyRoot_effect hs hr (f := ({ · with before := some d.text })) (.before hk hb)

theorem onAfter_effect (s : b.tree.Sound) (hk : d.kind = .after) :
    ∃ b', b.onAfter d = .ok b' ∧ Effect b d b' := by
  have ⟨r, hroot, hr, _⟩ := s.joined.root_eq_ok
  unfold onAfter
  split
  case h_1 => exact ⟨_, rfl, report_effect (by simp [hk]) ⟨rfl, rfl⟩⟩
  case h_2 p hs =>
    cases ha : p.after
    case some f => exact ⟨_, rfl, report_effect (by simp [hk]) ⟨rfl, rfl⟩⟩
    case none   => exact ⟨_, rfl, .pending hs (.after hk ha)⟩
  case h_3 hs =>
    rw [hroot, ok_bind]
    cases ha : r.after
    case some f => exact ⟨_, rfl, report_effect (by simp [hk]) ⟨rfl, rfl⟩⟩
    case none   =>
      refine ⟨_, rfl, ?_⟩
      exact modifyRoot_effect hs hr (f := ({ · with after := some d.text })) (.after hk ha)

theorem onFunction_effect (s : b.tree.Sound) (hk : d.kind = .function) :
    ∃ b', b.onFunction d = .ok b' ∧ Effect b d b' := by
  obtain ⟨root, hroot, hr, _⟩ := s.joined.root_eq_ok
  by_cases hs : ∃ p, b.scope = .command p
  case neg =>
    have hs : ∀ p, b.scope ≠ .command p := fun p h => hs ⟨p, h⟩
    rw [onFunction_of_scope hs, hroot, ok_bind]
    split
    case isTrue  => exact ⟨_, rfl, .main hk hs⟩
    case isFalse => exact ⟨_, rfl, .passed hk hs⟩
  case pos =>
    obtain ⟨p, hs⟩ := hs
    rw [onFunction_of_command hs, hroot, ok_bind]
    by_cases h : "" ∈ nameParts d.text
    case pos => exact ⟨_, if_pos h, .unnamed hk hs (.malformed hk)⟩
    case neg =>
      obtain ⟨r, hd, hm⟩ :=
        descend_eq_ok s (List.mem_of_getElem? hr) [] (nameParts d.text).dropLast
      rw [if_neg h, hd, ok_bind]
      cases r
      case error missing => exact ⟨_, rfl, .unnamed hk hs (.orphan hk _)⟩
      case ok parent =>
        obtain ⟨q, hq⟩ := List.getElem?_of_mem (hm parent rfl)
        obtain ⟨path, h⟩ | ⟨_, _, h, hf, hn, hc, hx⟩ :=
          place_eq_ok (b := { b with scope := .closed }) s p ((nameParts d.text).getLastD "") d.text hq
        case inl => exact ⟨_, h, .repeated hk hs path⟩
        case inr => exact ⟨_, h, .named hk hs ⟨⟨root, parent, hroot, hq, hd⟩, hn⟩ hf hc hx⟩

end Handlers

-- No directive stops a builder.
theorem feed_effect (s : b.tree.Sound) (d : Directive) :
    ∃ b', b.feed d = .ok b' ∧ Effect b d b' := by
  cases hk : d.kind <;> simp only [feed, hk]
  case describe   => exact onDescribe_effect s hk
  case version    => exact ⟨_, rfl, onMetadata_effect s (.inl hk)⟩
  case author     => exact ⟨_, rfl, onMetadata_effect s (.inr hk)⟩
  case command    => exact ⟨_, rfl, onCommand_effect hk⟩
  case aliases    => exact ⟨_, rfl, onAliases_effect hk⟩
  case option     => exact ⟨_, rfl, onParam_effect s (k := .option) hk⟩
  case flag       => exact ⟨_, rfl, onParam_effect s (k := .flag) hk⟩
  case positional => exact ⟨_, rfl, onParam_effect s (k := .positional) hk⟩
  case env        => exact ⟨_, rfl, onEnv_effect hk⟩
  case before     => exact onBefore_effect s hk
  case after      => exact onAfter_effect s hk
  case function   => exact onFunction_effect s hk

end Builder

end ShellArgs
