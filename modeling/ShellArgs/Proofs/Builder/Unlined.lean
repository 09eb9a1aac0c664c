import ShellArgs.Proofs.Builder.Step
import ShellArgs.Proofs.Tree.Unlined

-- What is built from directives does not depend on where the directives stand, but for the
-- numbers of lines that it carries along.

namespace ShellArgs

open Outcome

def EnvBinding.unlined (e : EnvBinding) : EnvBinding :=
  { e with line := 0 }

namespace PendingCommand

def unlined (p : PendingCommand) : PendingCommand :=
  { p with
    line := 0
    aliases := p.aliases.map fun a => (a.1, 0)
    params := p.params.map Param.unlined
    env := p.env.map EnvBinding.unlined }

@[simp] theorem before_unlined (p : PendingCommand) : p.unlined.before = p.before := rfl
@[simp] theorem after_unlined (p : PendingCommand) : p.unlined.after = p.after := rfl

end PendingCommand

def Scope.unlined : Scope → Scope
  | header    => header
  | command p => command p.unlined
  | closed    => closed

theorem Descriptor.read_unlined (kind : ParamKind) (text : String) (line : Int) :
    read kind text 0 = Param.unlined <$> read kind text line := by
  simp only [read]
  rcases Rule.descriptor kind _ _ with ⟨_ | ⟨p, s⟩, reach⟩ <;> rfl

namespace Builder

def unlined (b : Builder) : Builder where
  tree := b.tree.unlined
  diagnostics := b.diagnostics.map Diagnostic.unlined
  scope := b.scope.unlined
  headerEnv := b.headerEnv.map EnvBinding.unlined

variable {b : Builder} {d : Directive} {f g : Command → Command} {t : Tree}

@[simp] theorem tree_unlined : b.unlined.tree = b.tree.unlined := rfl
@[simp] theorem scope_unlined : b.unlined.scope = b.scope.unlined := rfl

theorem report_unlined (line : Int) (p : Problem) :
    b.unlined.report 0 p = (b.report line p).unlined := by
  simp only [report, unlined, List.map_append]
  rfl

theorem reportAll_unlined (ds : List Diagnostic) :
    b.unlined.reportAll (ds.map Diagnostic.unlined) = (b.reportAll ds).unlined := by
  simp only [reportAll, unlined, List.map_append]

theorem modifyRoot_unlined (h : ∀ c, g c.unlined = (f c).unlined) :
    b.unlined.modifyRoot g = (b.modifyRoot f).unlined := by
  simp only [modifyRoot, unlined, Tree.modify_unlined h]

theorem modifyFirst_unlined (p : Param → Bool) (f : Param → Param)
    (hp : ∀ q, p q.unlined = p q) (hf : ∀ q, f q.unlined = (f q).unlined) (ps : List Param) :
    modifyFirst p f (ps.map Param.unlined) = (modifyFirst p f ps).map Param.unlined := by
  induction ps with
  | nil => rfl
  | cons q qs hi =>
    simp only [List.map_cons, modifyFirst, hp, hf, hi]
    split <;> rfl

theorem bindEnv_unlined (es : List EnvBinding) (ps : List Param) :
    bindEnv (es.map EnvBinding.unlined) (ps.map Param.unlined) =
      ((bindEnv es ps).1.map Param.unlined, (bindEnv es ps).2.map Diagnostic.unlined) := by
  induction es generalizing ps with
  | nil => rfl
  | cons e es hi =>
    obtain ⟨var, target, line⟩ := e
    have hbound := modifyFirst_unlined (·.answersTo target) ({ · with envVar := some var })
      (fun _ => rfl) (fun _ => rfl) ps
    rw [List.map_cons, EnvBinding.unlined, bindEnv, bindEnv]
    simp only [List.find?_map, Function.comp_def, Param.answersTo_unlined]
    cases ps.find? (·.answersTo target)
    case none =>
      simp only [Option.map_none, hi]
      rfl
    case some p =>
      simp only [Option.map_some, Param.envVar_unlined, hbound, hi, List.map_append]
      cases p.envVar
      case none => rfl
      case some old =>
        by_cases ho : old ≠ var
        case pos => simp only [if_pos ho]; rfl
        case neg => simp only [if_neg ho]; rfl

section Handlers

theorem onDescribe_unlined : b.unlined.onDescribe d.unlined = unlined <$> b.onDescribe d := by
  unfold onDescribe
  rw [scope_unlined]
  cases b.scope
  case command p => rfl
  case closed    => exact congrArg Except.ok (report_unlined ..)
  case header =>
    simp only [Scope.unlined, tree_unlined, Tree.root_unlined]
    cases b.tree.root
    case error => rfl
    case ok root =>
      simp only [map_ok, ok_bind, pure_eq_ok, Command.help_unlined, Directive.line_unlined,
        report_unlined d.line]
      by_cases h : root.help = ""
      case pos =>
        simp only [h, if_true]
        rw [modifyRoot_unlined]
        exact fun _ => rfl
      case neg =>
        simp only [h, if_false]
        rw [modifyRoot_unlined]
        exact fun _ => rfl

theorem onMetadata_unlined : b.unlined.onMetadata d.unlined = (b.onMetadata d).unlined := by
  unfold onMetadata
  rw [scope_unlined]
  cases b.scope
  case command p => exact report_unlined ..
  case closed    => exact report_unlined ..
  case header =>
    simp only [Scope.unlined, Directive.kind_unlined]
    by_cases h : d.kind = .version
    case pos =>
      simp only [h, if_true]
      rw [modifyRoot_unlined]
      exact fun _ => rfl
    case neg =>
      simp only [h, if_false]
      rw [modifyRoot_unlined]
      exact fun _ => rfl

theorem onCommand_unlined : b.unlined.onCommand d.unlined = (b.onCommand d).unlined := by
  unfold onCommand
  rw [scope_unlined]
  cases b.scope
  case header => rfl
  case closed => rfl
  case command p =>
    exact congrArg (fun b => { b with scope := .command { line := 0, help := d.text } })
      (report_unlined (b := b) p.line .missingFunction)

theorem onAliases_unlined : b.unlined.onAliases d.unlined = (b.onAliases d).unlined := by
  unfold onAliases
  rw [scope_unlined]
  cases b.scope
  case header => exact report_unlined ..
  case closed => exact report_unlined ..
  case command p =>
    simp only [Scope.unlined, unlined, PendingCommand.unlined, List.map_append, List.map_map]
    rfl

theorem onParam_unlined (kind : ParamKind) :
    b.unlined.onParam d.unlined kind = (b.onParam d kind).unlined := by
  have hread := Descriptor.read_unlined kind d.text d.line
  unfold onParam
  rw [scope_unlined]
  cases b.scope
  case closed => exact report_unlined ..
  case header =>
    simp only [Scope.unlined, Directive.text_unlined, Directive.line_unlined, hread]
    cases Descriptor.read kind d.text d.line
    case error f => exact reportAll_unlined [f.diagnostic d.line]
    case ok p =>
      refine modifyRoot_unlined fun c => ?_
      simp only [Command.unlined, Command.addParam, Param.insert_unlined]
  case command c =>
    simp only [Scope.unlined, Directive.text_unlined, Directive.line_unlined, hread]
    cases Descriptor.read kind d.text d.line
    case error f => exact reportAll_unlined [f.diagnostic d.line]
    case ok p =>
      simp only [map_ok, unlined, Scope.unlined, PendingCommand.unlined, Param.insert_unlined]

theorem onEnv_unlined : b.unlined.onEnv d.unlined = (b.onEnv d).unlined := by
  unfold onEnv
  rw [scope_unlined]
  cases b.scope
  case closed => exact report_unlined ..
  case header =>
    simp only [Scope.unlined, Directive.text_unlined]
    cases envBinding? d.text
    case none   => exact report_unlined ..
    case some e => simp only [unlined, List.map_append]; rfl
  case command p =>
    simp only [Scope.unlined, Directive.text_unlined]
    cases envBinding? d.text
    case none   => exact report_unlined ..
    case some e => simp only [unlined, Scope.unlined, PendingCommand.unlined, List.map_append]; rfl

theorem onBefore_unlined : b.unlined.onBefore d.unlined = unlined <$> b.onBefore d := by
  unfold onBefore
  rw [scope_unlined]
  cases b.scope
  case closed => exact congrArg Except.ok (report_unlined ..)
  case command p =>
    by_cases h : p.before.isSome
    case pos =>
      simp only [Scope.unlined, PendingCommand.before_unlined, h, if_true]
      exact congrArg Except.ok (report_unlined ..)
    case neg =>
      simp only [Scope.unlined, PendingCommand.before_unlined, h]
      rfl
  case header =>
    simp only [Scope.unlined, tree_unlined, Tree.root_unlined]
    cases b.tree.root
    case error => rfl
    case ok root =>
      simp only [map_ok, ok_bind, Command.before_unlined]
      by_cases h : root.before.isSome
      case pos =>
        simp only [h, if_true]
        exact congrArg Except.ok (report_unlined ..)
      case neg =>
        simp only [h]
        refine congrArg Except.ok ?_
        rw [modifyRoot_unlined]
        exact fun _ => rfl

theorem onAfter_unlined : b.unlined.onAfter d.unlined = unlined <$> b.onAfter d := by
  unfold onAfter
  rw [scope_unlined]
  cases b.scope
  case closed => exact congrArg Except.ok (report_unlined ..)
  case command p =>
    by_cases h : p.after.isSome
    case pos =>
      simp only [Scope.unlined, PendingCommand.after_unlined, h, if_true]
      exact congrArg Except.ok (report_unlined ..)
    case neg =>
      simp only [Scope.unlined, PendingCommand.after_unlined, h]
      rfl
  case header =>
    simp only [Scope.unlined, tree_unlined, Tree.root_unlined]
    cases b.tree.root
    case error => rfl
    case ok root =>
      simp only [map_ok, ok_bind, Command.after_unlined]
      by_cases h : root.after.isSome
      case pos =>
        simp only [h, if_true]
        exact congrArg Except.ok (report_unlined ..)
      case neg =>
        simp only [h]
        refine congrArg Except.ok ?_
        rw [modifyRoot_unlined]
        exact fun _ => rfl

theorem descend_unlined (c : Command) (reached names : List String) :
    descend t.unlined c.unlined reached names =
      Except.map Command.unlined <$> descend t c reached names := by
  induction names generalizing c reached with
  | nil => rfl
  | cons n ns hi =>
    rw [descend, descend, Tree.findChild_unlined]
    cases t.findChild c n
    case error => rfl
    case ok child =>
      cases child
      case none       => rfl
      case some child => exact hi child _

theorem addName_unlined (index : Int) (word : String) :
    b.unlined.addName index word = (b.addName index word).unlined := by
  simp only [addName, unlined]
  rw [Tree.modify_unlined]
  exact fun _ => rfl

theorem claimNames_unlined (parent index : Int) (name : String) (ws : List (String × Int)) :
    claimNames b.unlined parent index name (ws.map fun a => (a.1, 0)) =
      unlined <$> claimNames b parent index name ws := by
  induction ws generalizing b with
  | nil => rfl
  | cons w ws hi =>
    rw [List.map_cons, claimNames, claimNames, tree_unlined, Tree.node_unlined]
    cases b.tree.node index
    case error => rfl
    case ok c =>
      simp only [map_ok, ok_bind, pure_eq_ok, Command.aliases_unlined]
      by_cases h : c.aliases.contains w.1
      case pos => simp only [h, if_true, report_unlined w.2, hi]
      case neg =>
        simp only [h, Tree.node_unlined]
        cases b.tree.node parent
        case error => rfl
        case ok q =>
          simp only [map_ok, ok_bind, Tree.findChild_unlined]
          cases b.tree.findChild q w.1
          case error => rfl
          case ok sibling =>
            cases sibling
            case none => simp only [map_ok, ok_bind, Option.map_none, addName_unlined, hi]; rfl
            case some sibling =>
              simp only [map_ok, ok_bind, Option.map_some, Command.index_unlined,
                Command.name_unlined, addName_unlined, report_unlined w.2]
              by_cases hs : sibling.index = index
              case pos => simp only [ne_eq, hs, not_true_eq_false, hi]; rfl
              case neg => simp only [ne_eq, hs, not_false_eq_true, if_true, hi]; rfl

theorem place_unlined (p : PendingCommand) (parent : Command) (name function : String) :
    b.unlined.place p.unlined parent.unlined name function =
      unlined <$> b.place p parent name function := by
  unfold place
  rw [tree_unlined, Tree.findChild_unlined]
  cases b.tree.findChild parent name
  case error => rfl
  case ok found =>
    cases found
    case some =>
      simp only [map_ok, ok_bind, Option.map_some, Option.isSome_some, if_true, Tree.path_unlined]
      cases b.tree.path parent
      case error => rfl
      case ok    => exact congrArg Except.ok (report_unlined ..)
    case none =>
      have hadd := Tree.addChild_unlined (t := b.tree) (i := parent.index)
        { index := 0, name := name, help := p.help, params := p.params, func := some function,
          before := p.before, after := p.after, line := p.line }
      simp only [map_ok, ok_bind, Option.map_none, Option.isSome_none, Bool.false_eq_true, if_false]
      refine Eq.trans (congrArg (· >>= _) hadd) ?_
      cases b.tree.addChild parent.index _
      case error => rfl
      case ok r =>
        have hclaim :=
          claimNames_unlined (b := { b with tree := r.1 }) parent.index r.2 name p.aliases
        simp only [map_ok, ok_bind]
        refine Eq.trans (congrArg (· >>= _) hclaim) ?_
        cases claimNames { b with tree := r.1 } parent.index r.2 name p.aliases
        case error => rfl
        case ok b =>
          simp only [map_ok, ok_bind, tree_unlined, Tree.node_unlined]
          cases b.tree.node r.2
          case error => rfl
          case ok c =>
            simp only [map_ok, ok_bind, pure_eq_ok, Command.params_unlined]
            have hbind : bindEnv p.unlined.env (c.params.map Param.unlined) = _ :=
              bindEnv_unlined p.env c.params
            rw [hbind]
            have hmodify := Tree.modify_unlined (t := b.tree) (p := r.2.toNat)
              (f := ({ · with params := (bindEnv p.env c.params).1 }))
              (g := ({ · with params := (bindEnv p.env c.params).1.map Param.unlined }))
              fun _ => rfl
            refine congrArg Except.ok (Eq.trans ?_ (reportAll_unlined _))
            exact congrArg (fun t => reportAll { b.unlined with tree := t } _) hmodify

theorem scope_unlined_ne (h : ∀ p, b.scope ≠ .command p) : ∀ p, b.unlined.scope ≠ .command p := by
  intro p hp
  rw [scope_unlined] at hp
  cases hb : b.scope <;> simp [hb, Scope.unlined] at hp
  exact h _ hb

theorem onFunction_unlined_of_scope (hs : ∀ p, b.scope ≠ .command p) :
    b.unlined.onFunction d.unlined = unlined <$> b.onFunction d := by
  rw [onFunction_of_scope hs, onFunction_of_scope (scope_unlined_ne hs), tree_unlined,
    Tree.root_unlined]
  cases b.tree.root
  case error => rfl
  case ok root =>
    rw [map_ok, ok_bind, ok_bind]
    by_cases hm : d.text = "main" ∧ root.func = none
    case pos =>
      have hm' : d.unlined.text = "main" ∧ root.unlined.func = none := hm
      rw [if_pos hm, if_pos hm']
      refine congrArg Except.ok ?_
      rw [modifyRoot_unlined]
      exact fun _ => rfl
    case neg =>
      have hm' : ¬ (d.unlined.text = "main" ∧ root.unlined.func = none) := hm
      rw [if_neg hm, if_neg hm']
      rfl

theorem onFunction_unlined_of_command {p : PendingCommand} (hs : b.scope = .command p) :
    b.unlined.onFunction d.unlined = unlined <$> b.onFunction d := by
  have hs' : b.unlined.scope = .command p.unlined := by rw [scope_unlined, hs]; rfl
  have hreport := report_unlined (b := { b with scope := .closed }) d.line
  rw [onFunction_of_command hs, onFunction_of_command hs', tree_unlined, Tree.root_unlined]
  cases b.tree.root
  case error => rfl
  case ok root =>
    simp only [map_ok, ok_bind, Directive.text_unlined, Directive.line_unlined, descend_unlined]
    by_cases hempty : "" ∈ nameParts d.text
    case pos =>
      rw [if_pos hempty, if_pos hempty]
      exact congrArg Except.ok (hreport _)
    case neg =>
      rw [if_neg hempty, if_neg hempty]
      cases descend b.tree root [] (nameParts d.text).dropLast
      case error => rfl
      case ok reached =>
        cases reached
        case error missing => exact congrArg Except.ok (hreport _)
        case ok parent     => exact place_unlined (b := { b with scope := .closed }) p parent _ d.text

theorem onFunction_unlined : b.unlined.onFunction d.unlined = unlined <$> b.onFunction d := by
  by_cases hs : ∃ p, b.scope = .command p
  case pos =>
    obtain ⟨p, hs⟩ := hs
    exact onFunction_unlined_of_command hs
  case neg => exact onFunction_unlined_of_scope (by simpa using hs)

end Handlers

theorem feed_unlined : b.unlined.feed d.unlined = unlined <$> b.feed d := by
  unfold feed
  rw [Directive.kind_unlined]
  cases d.kind
  case describe   => exact onDescribe_unlined
  case version    => exact congrArg Except.ok onMetadata_unlined
  case author     => exact congrArg Except.ok onMetadata_unlined
  case command    => exact congrArg Except.ok onCommand_unlined
  case aliases    => exact congrArg Except.ok onAliases_unlined
  case option     => exact congrArg Except.ok (onParam_unlined .option)
  case flag       => exact congrArg Except.ok (onParam_unlined .flag)
  case positional => exact congrArg Except.ok (onParam_unlined .positional)
  case env        => exact congrArg Except.ok onEnv_unlined
  case before     => exact onBefore_unlined
  case after      => exact onAfter_unlined
  case function   => exact onFunction_unlined

theorem foldlM_unlined (ds : List Directive) (b : Builder) :
    (ds.map Directive.unlined).foldlM feed b.unlined = unlined <$> ds.foldlM feed b := by
  induction ds generalizing b with
  | nil => rfl
  | cons d ds hi =>
    rw [List.map_cons, List.foldlM_cons, List.foldlM_cons, feed_unlined]
    cases b.feed d
    case error => rfl
    case ok b  => exact hi b

-- At the end of a script the header takes its bindings, after a command that is still pending was
-- reported.
theorem finish_of_command {p : PendingCommand} (h : b.scope = .command p) :
    b.finish = finish { b.report p.line .missingFunction with scope := .closed } := by
  simp only [finish, h]
  rfl

theorem finish_of_scope (h : ∀ p, b.scope ≠ .command p) : b.finish = (b.tree.root >>= fun root =>
    let (params, ds) := bindEnv b.headerEnv root.params
    let b := (b.modifyRoot ({ · with params })).reportAll ds
    .ok (b.tree, b.diagnostics)) := by
  unfold finish
  cases hs : b.scope
  case header    => rfl
  case closed    => rfl
  case command p => exact absurd hs (h p)

theorem finish_unlined_of_scope (h : ∀ p, b.scope ≠ .command p) : b.unlined.finish =
    (fun r => (r.1.unlined, r.2.map Diagnostic.unlined)) <$> b.finish := by
  rw [finish_of_scope h, finish_of_scope (scope_unlined_ne h), tree_unlined, Tree.root_unlined]
  cases b.tree.root
  case error => rfl
  case ok root =>
    have hbind : bindEnv b.unlined.headerEnv root.unlined.params = _ :=
      bindEnv_unlined b.headerEnv root.params
    have hmodify := modifyRoot_unlined (b := b)
      (f := ({ · with params := (bindEnv b.headerEnv root.params).1 }))
      (g := ({ · with params := (bindEnv b.headerEnv root.params).1.map Param.unlined }))
      fun _ => rfl
    simp only [map_ok, ok_bind, hbind, hmodify, reportAll_unlined]
    rfl

theorem finish_unlined : b.unlined.finish =
    (fun r => (r.1.unlined, r.2.map Diagnostic.unlined)) <$> b.finish := by
  by_cases hs : ∃ p, b.scope = .command p
  case neg => exact finish_unlined_of_scope (by simpa using hs)
  case pos =>
    obtain ⟨p, hp⟩ := hs
    have hp' : b.unlined.scope = .command p.unlined := by rw [scope_unlined, hp]; rfl
    have hline : p.unlined.line = 0 := rfl
    rw [finish_of_command hp, finish_of_command hp', hline, report_unlined p.line]
    exact finish_unlined_of_scope (b := { b.report p.line .missingFunction with scope := .closed })
      fun q hq => nomatch hq

end Builder

theorem Tree.ofDirectives_unlined (ds : List Directive) : ofDirectives (ds.map Directive.unlined) =
    (fun r => (r.1.unlined, r.2.map Diagnostic.unlined)) <$> ofDirectives ds := by
  have hstart : ({} : Builder) = Builder.unlined {} := rfl
  rw [ofDirectives, hstart, Builder.foldlM_unlined, ofDirectives]
  cases ds.foldlM Builder.feed {}
  case error => rfl
  case ok b  => exact Builder.finish_unlined

end ShellArgs
