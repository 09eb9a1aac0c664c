import Mathlib.Logic.Function.Basic
import ShellArgs.Proofs.Builder.Abandoned
import ShellArgs.Proofs.Builder.Contents

-- The order of directives. Each directive but the ones that begin or end a command is about a single
-- part of the description of a command, and looks at no other part. Directives about different parts
-- can trade their places.

namespace ShellArgs

open Outcome

-- The parts of a description.
inductive Field where
  | help
  | version
  | author
  | aliases
  | params
  | env
  | before
  | after
deriving DecidableEq, Repr

abbrev Field.Value : Field → Type
  | help    => String
  | version => Option String
  | author  => Option String
  | aliases => List (String × Int)
  | params  => List Param
  | env     => List EnvBinding
  | before  => Option String
  | after   => Option String

-- All that directives can say of a command.
abbrev Description : Type :=
  (f : Field) → f.Value

def Command.description (c : Command) (env : List EnvBinding) : Description
  | .help    => c.help
  | .version => c.version
  | .author  => c.author
  | .aliases => []
  | .params  => c.params
  | .env     => env
  | .before  => c.before
  | .after   => c.after

def PendingCommand.description (p : PendingCommand) : Description
  | .help    => p.help
  | .version => none
  | .author  => none
  | .aliases => p.aliases
  | .params  => p.params
  | .env     => p.env
  | .before  => p.before
  | .after   => p.after

def Command.described (c : Command) (s : Description) : Command :=
  { c with
    help := s .help, version := s .version, author := s .author, params := s .params,
    before := s .before, after := s .after }

def PendingCommand.described (p : PendingCommand) (s : Description) : PendingCommand :=
  { p with
    help := s .help, aliases := s .aliases, params := s .params, env := s .env,
    before := s .before, after := s .after }

-- What a directive is about. Options and flags stand apart from positionals, although they are all
-- among the parameters.
inductive Topic where
  | description
  | version
  | author
  | aliases
  | options
  | positionals
  | env
  | before
  | after
deriving DecidableEq, Repr

namespace Topic

def field : Topic → Field
  | description => .help
  | version     => .version
  | author      => .author
  | aliases     => .aliases
  | options     => .params
  | positionals => .params
  | env         => .env
  | before      => .before
  | after       => .after

theorem eq_or_params {x y : Topic} (h : x.field = y.field) :
    x = y ∨ (x = options ∧ y = positionals) ∨ (x = positionals ∧ y = options) := by
  cases x <;> cases y <;> simp_all [field]

end Topic

-- Commands and functions begin and end what others are about.
def DirectiveKind.topic? : DirectiveKind → Option Topic
  | describe   => some .description
  | version    => some .version
  | author     => some .author
  | aliases    => some .aliases
  | option     => some .options
  | flag       => some .options
  | positional => some .positionals
  | env        => some .env
  | before     => some .before
  | after      => some .after
  | command    => none
  | function   => none

theorem DirectiveKind.option_or_flag {k : DirectiveKind} (h : k.topic? = some .options) :
    k = option ∨ k = flag := by
  cases k <;> simp_all [topic?]

theorem DirectiveKind.eq_positional {k : DirectiveKind} (h : k.topic? = some .positionals) :
    k = positional := by
  cases k <;> simp_all [topic?]

-- Options and positionals have places of their own among the parameters.
theorem Param.insert_comm {p q : Param} (hp : p.isPositional = false) (hq : q.isPositional = true)
    (ps : List Param) : p.insert (q.insert ps) = q.insert (p.insert ps) := by
  simp only [insert, hp, hq, if_true, Bool.false_eq_true, if_false]
  induction ps with
  | nil => simp [hq]
  | cons r ps hi =>
    cases hr : r.isPositional
    case true  => simp [hr]
    case false => simpa [hr] using hi

variable {b c : Builder} {d e : Directive} {f g : Field} {x y : Topic} {s : Description}

namespace Builder

-- The builder with another description of what its scope is about.
def describing (b : Builder) (s : Description) : Builder :=
  match b.scope with
  | .header    => { b with tree := b.tree.modify 0 (·.described s), headerEnv := s .env }
  | .command p => { b with scope := .command (p.described s) }
  | .closed    => b

-- A directive makes something new of one part of the description. This and its reports depend on
-- this part alone.
def Edits (b : Builder) (d : Directive) (f : Field) (act : f.Value → f.Value × List Diagnostic) : Prop :=
  ∀ s : Description, (b.describing s).feed d =
    .ok ((b.describing (Function.update s f (act (s f)).1)).reportAll (act (s f)).2)

theorem exists_description (h : b.tree.Sound) : ∃ s, b.describing s = b := by
  have ⟨r, _, hr, _⟩ := h.joined.root_eq_ok
  obtain ⟨t, ds, sc, env⟩ := b
  cases sc with
  | closed    => exact ⟨r.description env, rfl⟩
  | command p => exact ⟨p.description, rfl⟩
  | header    =>
    refine ⟨r.description env, ?_⟩
    have hself : t.modify 0 (·.described (r.description env)) = t :=
      (Tree.modify_eq_modify_const hr _).trans (Tree.modify_self hr)
    simp only [describing, hself]
    rfl

-- What cannot stand where it does is reported, and has no effect.
theorem Edits.of_report {p : Problem}
    (h : ∀ s : Description, (b.describing s).feed d = .ok ((b.describing s).report d.line p)) :
    b.Edits d f fun v => (v, [p.located d.line]) := by
  intro s
  rw [h, Function.update_eq_self]
  rfl

theorem Edits.of_closed {p : Problem} (hs : b.scope = .closed)
    (h : b.feed d = .ok (b.report d.line p)) : b.Edits d f fun v => (v, [p.located d.line]) :=
  .of_report fun s => by
    have hb : b.describing s = b := by simp [describing, hs]
    rw [hb, h]

-- The first to say something is right, and all others are reported.
theorem Edits.of_first {v : f.Value} (said : f.Value → Bool) (p : Problem)
    (hp : ∀ s : Description, said (s f) → (b.describing s).feed d =
      .ok ((b.describing s).report d.line p))
    (hv : ∀ s : Description, ¬ said (s f) → (b.describing s).feed d =
      .ok (b.describing (Function.update s f v))) :
    b.Edits d f fun w => if said w then (w, [p.located d.line]) else (v, []) := by
  intro s
  by_cases h : said (s f)
  case pos =>
    rw [hp s h]
    simp only [h, if_true, Function.update_eq_self]
    rfl
  case neg =>
    rw [hv s h]
    simp [h, reportAll]

section Handlers

theorem scope_describing_header (hs : b.scope = .header) : (b.describing s).scope = .header := by
  simp [describing, hs]

theorem root_describing (h : b.tree.Sound) (hs : b.scope = .header) (s : Description) :
    ∃ r, (b.describing s).tree.root = .ok r ∧ r.help = s .help ∧ r.before = s .before ∧
      r.after = s .after := by
  have ⟨r, _, hr, _⟩ := h.joined.root_eq_ok
  have hd : (b.describing s).tree.nodes[0]? = some (r.described s) := by
    simp [describing, hs, Tree.getElem?_modify, hr]
  exact ⟨r.described s, Tree.node_eq_ok hd, rfl, rfl, rfl⟩

-- A description that is changed in one part makes a command that is changed in this part.
theorem modifyRoot_describing (hs : b.scope = .header) {v : f.Value} {edit : Command → Command}
    (h : ∀ c : Command, edit (c.described s) = c.described (Function.update s f v))
    (hf : f ≠ .env) :
    (b.describing s).modifyRoot edit = b.describing (Function.update s f v) := by
  simp only [describing, hs, modifyRoot, Tree.modify, List.modify_modify_eq, Function.comp_def, h,
    Function.update_of_ne hf.symm]

theorem onDescribe_edits (h : b.tree.Sound) (hk : d.kind = .describe) :
    ∃ act, b.Edits d .help act := by
  cases hs : b.scope with
  | closed => exact ⟨_, .of_closed (p := .stranded d.kind) hs (by simp [feed, hk, onDescribe, hs])⟩
  | command p =>
    refine ⟨fun _ => (d.text, []), fun s => ?_⟩
    simp [feed, hk, onDescribe, describing, hs, reportAll, PendingCommand.described]
  | header =>
    refine ⟨fun v => (d.text, if v = "" then [] else [Problem.repeatedDescription.located d.line]),
      fun s => ?_⟩
    obtain ⟨r, hr, hhelp, _⟩ := root_describing h hs s
    have hroot : (b.describing s).modifyRoot ({ · with help := d.text }) = _ :=
      modifyRoot_describing (f := .help) (v := d.text) hs (fun _ => rfl) (by decide)
    simp only [feed, hk, onDescribe, scope_describing_header hs, hr, ok_bind, hhelp, ← hroot]
    split
    case isTrue  => exact congrArg Except.ok (reportAll_nil _).symm
    case isFalse => rfl

theorem onMetadata_edits (hk : d.kind = .version ∧ f = .version ∨ d.kind = .author ∧ f = .author) :
    ∃ act, b.Edits d f act := by
  cases hs : b.scope with
  | closed =>
    refine ⟨_, .of_report (p := .headerOnly d.kind) fun s => ?_⟩
    obtain ⟨hk, _⟩ | ⟨hk, _⟩ := hk <;> simp [feed, hk, onMetadata, describing, hs]
  | command p =>
    refine ⟨_, .of_report (p := .headerOnly d.kind) fun s => ?_⟩
    obtain ⟨hk, _⟩ | ⟨hk, _⟩ := hk <;> simp [feed, hk, onMetadata, describing, hs]
  | header =>
    obtain ⟨hk, rfl⟩ | ⟨hk, rfl⟩ := hk
    case inl =>
      refine ⟨fun _ => (some d.text, []), fun s => ?_⟩
      have hroot : (b.describing s).modifyRoot ({ · with version := some d.text }) = _ :=
        modifyRoot_describing (f := .version) (v := some d.text) hs (fun _ => rfl) (by decide)
      simp [feed, hk, onMetadata, scope_describing_header hs, ← hroot]
    case inr =>
      refine ⟨fun _ => (some d.text, []), fun s => ?_⟩
      have hroot : (b.describing s).modifyRoot ({ · with author := some d.text }) = _ :=
        modifyRoot_describing (f := .author) (v := some d.text) hs (fun _ => rfl) (by decide)
      simp [feed, hk, onMetadata, scope_describing_header hs, ← hroot]

theorem onAliases_edits (hk : d.kind = .aliases) : ∃ act, b.Edits d .aliases act := by
  cases hs : b.scope with
  | closed => exact ⟨_, .of_closed (p := .stranded d.kind) hs (by simp [feed, hk, onAliases, hs])⟩
  | header =>
    refine ⟨_, .of_report (p := .aliasesInHeader) fun s => ?_⟩
    simp [feed, hk, onAliases, describing, hs]
  | command p =>
    refine ⟨fun v => (v ++ (d.text.toList.splitOn ',').map fun s =>
      (String.ofList (Text.trim s), d.line), []), fun s => ?_⟩
    simp [feed, hk, onAliases, describing, hs, reportAll, PendingCommand.described]

-- A parameter goes to its place among the others.
theorem onParam_edits {k : ParamKind} (hk : d.kind = k.directive) :
    ∃ p? : Option Param, (∀ p ∈ p?, p.kind = k) ∧
      ∃ ds, b.Edits d .params fun v => (p?.elim v (·.insert v), ds) := by
  have hfeed (c : Builder) : c.feed d = .ok (c.onParam d k) := by
    cases k <;> simp [feed, hk, ParamKind.directive]
  cases hs : b.scope with
  | closed =>
    have hstranded : b.feed d = .ok (b.report d.line (.stranded d.kind)) := by
      simp [hfeed, onParam, hs]
    exact ⟨none, by simp, _, .of_closed hs hstranded⟩
  | command p =>
    cases hp : Descriptor.read k d.text d.line with
    | error e =>
      refine ⟨none, by simp, [e.diagnostic d.line], fun s => ?_⟩
      simp [hfeed, onParam, describing, hs, hp]
    | ok q =>
      refine ⟨some q, by simpa using (Descriptor.declared_of_read hp).kind, [], fun s => ?_⟩
      simp [hfeed, onParam, describing, hs, hp, PendingCommand.described]
  | header =>
    cases hp : Descriptor.read k d.text d.line with
    | error e =>
      refine ⟨none, by simp, [e.diagnostic d.line], fun s => ?_⟩
      simp [hfeed, onParam, scope_describing_header hs, hp]
    | ok q =>
      refine ⟨some q, by simpa using (Descriptor.declared_of_read hp).kind, [], fun s => ?_⟩
      have hroot : (b.describing s).modifyRoot (·.addParam q) = _ :=
        modifyRoot_describing (f := .params) (v := q.insert (s .params)) hs (fun _ => rfl) (by decide)
      simp [hfeed, onParam, scope_describing_header hs, hp, ← hroot]

theorem onEnv_edits (hk : d.kind = .env) : ∃ act, b.Edits d .env act := by
  cases hs : b.scope with
  | closed => exact ⟨_, .of_closed (p := .stranded d.kind) hs (by simp [feed, hk, onEnv, hs])⟩
  | command p =>
    cases he : envBinding? d.text with
    | none =>
      refine ⟨_, .of_report (p := .malformedEnv d.text) fun s => ?_⟩
      simp [feed, hk, onEnv, describing, hs, he]
    | some e =>
      refine ⟨fun v => (v ++ [⟨e.1, e.2, d.line⟩], []), fun s => ?_⟩
      simp [feed, hk, onEnv, describing, hs, he, PendingCommand.described]
  | header =>
    cases he : envBinding? d.text with
    | none =>
      refine ⟨_, .of_report (p := .malformedEnv d.text) fun s => ?_⟩
      simp [feed, hk, onEnv, describing, hs, he]
    | some e =>
      refine ⟨fun v => (v ++ [⟨e.1, e.2, d.line⟩], []), fun s => ?_⟩
      simp [feed, hk, onEnv, describing, hs, he]
      rfl

theorem onBefore_edits (h : b.tree.Sound) (hk : d.kind = .before) :
    ∃ act, b.Edits d .before act := by
  cases hs : b.scope with
  | closed => exact ⟨_, .of_closed (p := .stranded d.kind) hs (by simp [feed, hk, onBefore, hs])⟩
  | command p =>
    refine ⟨_, .of_first (f := .before) (v := some d.text) Option.isSome (.repeatedHook d.kind)
      (fun s hb => ?_) fun s hb => ?_⟩
    case refine_1 => simp [feed, hk, onBefore, describing, hs, PendingCommand.described, hb]
    case refine_2 => simp [feed, hk, onBefore, describing, hs, PendingCommand.described, hb]
  | header =>
    refine ⟨_, .of_first (f := .before) (v := some d.text) Option.isSome (.repeatedHook d.kind)
      (fun s hb => ?_) fun s hb => ?_⟩
    all_goals obtain ⟨r, hr, _, hbefore, _⟩ := root_describing h hs s
    case refine_1 => simp [feed, hk, onBefore, scope_describing_header hs, hr, hbefore, hb]
    case refine_2 =>
      have hroot : (b.describing s).modifyRoot ({ · with before := some d.text }) = _ :=
        modifyRoot_describing (f := .before) (v := some d.text) hs (fun _ => rfl) (by decide)
      simp [feed, hk, onBefore, scope_describing_header hs, hr, hbefore, hb, hroot]

theorem onAfter_edits (h : b.tree.Sound) (hk : d.kind = .after) : ∃ act, b.Edits d .after act := by
  cases hs : b.scope with
  | closed => exact ⟨_, .of_closed (p := .stranded d.kind) hs (by simp [feed, hk, onAfter, hs])⟩
  | command p =>
    refine ⟨_, .of_first (f := .after) (v := some d.text) Option.isSome (.repeatedHook d.kind)
      (fun s ha => ?_) fun s ha => ?_⟩
    case refine_1 => simp [feed, hk, onAfter, describing, hs, PendingCommand.described, ha]
    case refine_2 => simp [feed, hk, onAfter, describing, hs, PendingCommand.described, ha]
  | header =>
    refine ⟨_, .of_first (f := .after) (v := some d.text) Option.isSome (.repeatedHook d.kind)
      (fun s ha => ?_) fun s ha => ?_⟩
    all_goals obtain ⟨r, hr, _, _, hafter⟩ := root_describing h hs s
    case refine_1 => simp [feed, hk, onAfter, scope_describing_header hs, hr, hafter, ha]
    case refine_2 =>
      have hroot : (b.describing s).modifyRoot ({ · with after := some d.text }) = _ :=
        modifyRoot_describing (f := .after) (v := some d.text) hs (fun _ => rfl) (by decide)
      simp [feed, hk, onAfter, scope_describing_header hs, hr, hafter, ha, hroot]

theorem exists_edits (h : b.tree.Sound) (hk : d.kind.topic? = some x) :
    ∃ act, b.Edits d x.field act := by
  have hparam {k : ParamKind} (hk : d.kind = k.directive) : ∃ act, b.Edits d .params act :=
    have ⟨_, _, _, he⟩ := onParam_edits hk
    ⟨_, he⟩
  cases hd : d.kind <;> rw [hd] at hk <;> cases hk
  case describe   => exact onDescribe_edits h hd
  case version    => exact onMetadata_edits (.inl ⟨hd, rfl⟩)
  case author     => exact onMetadata_edits (.inr ⟨hd, rfl⟩)
  case aliases    => exact onAliases_edits hd
  case option     => exact hparam (k := .option) hd
  case flag       => exact hparam (k := .flag) hd
  case positional => exact hparam (k := .positional) hd
  case env        => exact onEnv_edits hd
  case before     => exact onBefore_edits h hd
  case after      => exact onAfter_edits h hd

end Handlers

section Pairs

theorem diagnostics_describing (b : Builder) (s : Description) :
    (b.describing s).diagnostics = b.diagnostics := by
  unfold describing
  split <;> rfl

-- Reports that are there already stay ahead of those of a directive.
theorem feed_reportAll {ds es : List Diagnostic} (h : b.feed d = .ok (c.reportAll es))
    (hc : c.diagnostics = b.diagnostics) : (b.reportAll ds).feed d = .ok (c.reportAll (ds ++ es)) := by
  let blank : Builder := { b with diagnostics := [] }
  have hb : b = blank.recalling b.diagnostics := by simp [blank, recalling]
  have hds : b.reportAll ds = blank.recalling (b.diagnostics ++ ds) := by
    simp [blank, recalling, reportAll]
  rw [hb, feed_recalling] at h
  cases hx : blank.feed d with
  | error x => rw [hx] at h; cases h
  | ok x =>
    rw [hx, map_ok] at h
    rw [hds, feed_recalling, hx, map_ok]
    obtain ⟨t, xs, sc, env⟩ := x
    obtain ⟨t', cs, sc', env'⟩ := c
    simp only [recalling, reportAll, Except.ok.injEq, Builder.mk.injEq] at h hc ⊢
    subst hc
    simpa using h

-- What two directives make of the description, one after the other.
theorem Edits.feed_feed {act : f.Value → f.Value × List Diagnostic}
    {act' : g.Value → g.Value × List Diagnostic} (hd : b.Edits d f act) (he : b.Edits e g act')
    (s : Description) : (b.describing s).feed d >>= (·.feed e) =
      let s' := Function.update s f (act (s f)).1
      .ok ((b.describing (Function.update s' g (act' (s' g)).1)).reportAll
        ((act (s f)).2 ++ (act' (s' g)).2)) := by
  rw [hd, ok_bind]
  exact feed_reportAll (he _) ((diagnostics_describing ..).trans (diagnostics_describing ..).symm)

-- Two directives have the same effect in both orders. What they report is in the order of the
-- directives.
def Interchange (b : Builder) (d e : Directive) : Prop :=
  ∃ (c : Builder) (ds es : List Diagnostic),
    b.feed d >>= (·.feed e) = .ok (c.reportAll (ds ++ es)) ∧
    b.feed e >>= (·.feed d) = .ok (c.reportAll (es ++ ds))

theorem Interchange.symm (h : b.Interchange d e) : b.Interchange e d :=
  have ⟨c, ds, es, hd, he⟩ := h
  ⟨c, es, ds, he, hd⟩

-- Directives about different parts.
theorem Edits.interchange {act : f.Value → f.Value × List Diagnostic}
    {act' : g.Value → g.Value × List Diagnostic} (hd : b.Edits d f act) (he : b.Edits e g act')
    (hn : f ≠ g) (s : Description) : (b.describing s).Interchange d e := by
  refine ⟨_, _, _, hd.feed_feed he s, ?_⟩
  rw [he.feed_feed hd s]
  simp only [Function.update_of_ne hn, Function.update_of_ne hn.symm, Function.update_comm hn]

-- Directives about one part, which have the same effect on it in both orders.
theorem Edits.interchange_self {i j : f.Value → f.Value} {ds es : List Diagnostic}
    (hd : b.Edits d f fun v => (i v, ds)) (he : b.Edits e f fun v => (j v, es))
    (hc : ∀ v, i (j v) = j (i v)) (s : Description) : (b.describing s).Interchange d e := by
  refine ⟨_, _, _, hd.feed_feed he s, ?_⟩
  rw [he.feed_feed hd s]
  simp only [Function.update_self, Function.update_idem, hc]

end Pairs

end Builder

-- Two directives that are about different things, neither of which is a command or a function.
def Directive.Unrelated (d e : Directive) : Prop :=
  ∃ x y, d.kind.topic? = some x ∧ e.kind.topic? = some y ∧ x ≠ y

namespace Builder

-- An option or flag and a positional.
theorem interchange_params (hd : d.kind = .option ∨ d.kind = .flag) (he : e.kind = .positional)
    (s : Description) : (b.describing s).Interchange d e := by
  have ⟨k, hk, hne⟩ : ∃ k : ParamKind, d.kind = k.directive ∧ k ≠ .positional := by
    cases hd
    case inl h => exact ⟨.option, h, by decide⟩
    case inr h => exact ⟨.flag, h, by decide⟩
  have ⟨p?, hp, ds, hd⟩ := onParam_edits (b := b) hk
  have ⟨q?, hq, es, he⟩ := onParam_edits (b := b) (k := .positional) he
  refine hd.interchange_self he (fun v => ?_) s
  cases p?
  case none => rfl
  case some p =>
    cases q?
    case none => rfl
    case some q =>
      refine Param.insert_comm ?_ ?_ v
      case refine_1 => simpa [Param.isPositional, hp p rfl] using hne
      case refine_2 => simp [Param.isPositional, hq q rfl]

theorem interchange_of_unrelated (h : b.tree.Sound) (hu : d.Unrelated e) : b.Interchange d e := by
  have ⟨s, hs⟩ := exists_description h
  have ⟨x, y, hx, hy, hne⟩ := hu
  rw [← hs]
  by_cases hf : x.field = y.field
  case neg =>
    have ⟨_, hd⟩ := exists_edits h hx
    have ⟨_, he⟩ := exists_edits h hy
    exact hd.interchange he hf s
  case pos =>
    rcases Topic.eq_or_params hf with hxy | ⟨rfl, rfl⟩ | ⟨rfl, rfl⟩
    case inl     => exact absurd hxy hne
    case inr.inl =>
      exact interchange_params (DirectiveKind.option_or_flag hx) (DirectiveKind.eq_positional hy) s
    case inr.inr =>
      have he := DirectiveKind.option_or_flag hy
      exact (interchange_params he (DirectiveKind.eq_positional hx) s).symm

-- What comes later makes the same of builders that differ only in the order of their reports.
theorem exists_finish_reportAll (h : c.tree.Sound) (later : List Directive) :
    ∃ t rest, ∀ ds, later.foldlM feed (c.reportAll ds) >>= finish =
      .ok (t, c.diagnostics ++ ds ++ rest) := by
  have ⟨b, hb, hlater⟩ := exists_foldlM_feed h c.scope c.headerEnv later
  have ⟨r, hr, _⟩ := hb.root
  let bound := bindEnv b.headerEnv r.params
  refine ⟨b.tree.modify 0 fun _ => { r with params := bound.1 },
    b.diagnostics ++ b.endProblems ++ bound.2, fun ds => ?_⟩
  refine (congrArg (· >>= finish) (hlater (c.diagnostics ++ ds))).trans ?_
  rw [ok_bind, finish_eq_ok (b := b.recalling _) hb hr]
  simp only [recalling, endProblems, bound, List.append_assoc]

end Builder

-- Directives about different things can trade their places, wherever they stand next to each other.
-- The tree is the same, and so are the diagnostics, up to their order.
theorem Tree.ofDirectives_swap (h : d.Unrelated e) (done later : List Directive) :
    ∃ t ps ps', Tree.ofDirectives (done ++ d :: e :: later) = .ok (t, ps) ∧
      Tree.ofDirectives (done ++ e :: d :: later) = .ok (t, ps') ∧ ps.Perm ps' := by
  have ⟨b, hb, s, _⟩ := Builder.foldlM_feed (fun _ _ => True) trivial (fun _ _ _ => trivial) done
  have hrun (x y : Directive) : Tree.ofDirectives (done ++ x :: y :: later) =
      (b.feed x >>= (·.feed y)) >>= fun b => later.foldlM Builder.feed b >>= Builder.finish := by
    simp [Tree.ofDirectives, hb]
  obtain ⟨c, ds, es, hde, hed⟩ := Builder.interchange_of_unrelated s h
  have hc : c.tree.Sound := by
    obtain ⟨b₁, h₁, hd⟩ := Builder.feed_step s d
    obtain ⟨b₂, h₂, he⟩ := Builder.feed_step (hd.sound s) e
    rw [h₁, ok_bind, h₂] at hde
    have hs : b₂.tree.Sound := he.sound (hd.sound s)
    rwa [Except.ok.inj hde] at hs
  obtain ⟨t, rest, hlater⟩ := Builder.exists_finish_reportAll hc later
  refine ⟨t, c.diagnostics ++ (ds ++ es) ++ rest, c.diagnostics ++ (es ++ ds) ++ rest, ?_, ?_, ?_⟩
  case refine_1 => rw [hrun, hde, ok_bind, hlater]
  case refine_2 => rw [hrun, hed, ok_bind, hlater]
  case refine_3 => exact (List.perm_append_comm.append_left _).append_right rest

-- The variable of an option can be named before the option is.
theorem Tree.ofDirectives_swap_env :
    (⟨.env, "TARGET target", 2⟩ : Directive).Unrelated ⟨.option, "--target", 3⟩ ∧
    ∃ t ps ps',
      Tree.ofDirectives ([⟨.command, "Deploy", 1⟩] ++ ⟨.env, "TARGET target", 2⟩ ::
        ⟨.option, "--target", 3⟩ :: [⟨.function, "deploy", 4⟩]) = .ok (t, ps) ∧
      Tree.ofDirectives ([⟨.command, "Deploy", 1⟩] ++ ⟨.option, "--target", 3⟩ ::
        ⟨.env, "TARGET target", 2⟩ :: [⟨.function, "deploy", 4⟩]) = .ok (t, ps') ∧ ps.Perm ps' := by
  have h : (⟨.env, "TARGET target", 2⟩ : Directive).Unrelated ⟨.option, "--target", 3⟩ :=
    ⟨_, _, rfl, rfl, by decide⟩
  exact ⟨h, Tree.ofDirectives_swap h _ _⟩

end ShellArgs
