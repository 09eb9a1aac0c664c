import ShellArgs.Proofs.Outcome
import ShellArgs.Tree.Builder

-- What a builder has reported so far has no effect on what it does next.

namespace ShellArgs

open Outcome

namespace Builder

variable {b c : Builder} {d : Directive} {before : List Diagnostic}

-- A builder that has reported more, before all that it has reported.
def recalling (before : List Diagnostic) (b : Builder) : Builder :=
  { b with diagnostics := before ++ b.diagnostics }

@[simp] theorem tree_recalling : (b.recalling before).tree = b.tree := rfl
@[simp] theorem scope_recalling : (b.recalling before).scope = b.scope := rfl

@[simp] theorem report_recalling (line : Int) (p : Problem) :
    (b.recalling before).report line p = (b.report line p).recalling before := by
  simp only [report, recalling, List.append_assoc]

@[simp] theorem reportAll_recalling (ds : List Diagnostic) :
    (b.recalling before).reportAll ds = (b.reportAll ds).recalling before := by
  simp only [reportAll, recalling, List.append_assoc]

@[simp] theorem modifyRoot_recalling (f : Command → Command) :
    (b.recalling before).modifyRoot f = (b.modifyRoot f).recalling before :=
  rfl

section Handlers

theorem onDescribe_recalling :
    (b.recalling before).onDescribe d = recalling before <$> b.onDescribe d := by
  unfold onDescribe
  rw [scope_recalling]
  cases b.scope
  case command => rfl
  case closed  => simp
  case header =>
    rw [tree_recalling]
    cases b.tree.root
    case error   => rfl
    case ok root => by_cases h : root.help = "" <;> simp [h]

theorem onMetadata_recalling :
    (b.recalling before).onMetadata d = (b.onMetadata d).recalling before := by
  unfold onMetadata
  rw [scope_recalling]
  cases b.scope
  case command => simp
  case closed  => simp
  case header  => by_cases h : d.kind = .version <;> simp [h]

theorem onCommand_recalling :
    (b.recalling before).onCommand d = (b.onCommand d).recalling before := by
  unfold onCommand
  rw [scope_recalling]
  cases b.scope
  case header    => rfl
  case closed    => rfl
  case command p =>
    exact congrArg (fun b => { b with scope := .command { line := d.line, help := d.text } })
      (report_recalling (b := b) p.line .missingFunction)

theorem onAliases_recalling :
    (b.recalling before).onAliases d = (b.onAliases d).recalling before := by
  unfold onAliases
  rw [scope_recalling]
  cases b.scope
  case header  => simp
  case closed  => simp
  case command => rfl

theorem onParam_recalling (kind : ParamKind) :
    (b.recalling before).onParam d kind = (b.onParam d kind).recalling before := by
  unfold onParam
  rw [scope_recalling]
  cases b.scope
  case closed  => simp
  case header  => cases Descriptor.read kind d.text d.line <;> simp
  case command =>
    cases Descriptor.read kind d.text d.line
    case error f => simp
    case ok p    => rfl

theorem onEnv_recalling : (b.recalling before).onEnv d = (b.onEnv d).recalling before := by
  unfold onEnv
  rw [scope_recalling]
  cases b.scope
  case closed => simp
  case header =>
    cases envBinding? d.text
    case none   => simp
    case some e => rfl
  case command =>
    cases envBinding? d.text
    case none   => simp
    case some e => rfl

theorem onBefore_recalling :
    (b.recalling before).onBefore d = recalling before <$> b.onBefore d := by
  unfold onBefore
  rw [scope_recalling]
  cases b.scope
  case closed    => simp
  case command p => cases h : p.before <;> simp [h]; rfl
  case header =>
    rw [tree_recalling]
    cases b.tree.root
    case error   => rfl
    case ok root => cases h : root.before <;> simp [h]

theorem onAfter_recalling :
    (b.recalling before).onAfter d = recalling before <$> b.onAfter d := by
  unfold onAfter
  rw [scope_recalling]
  cases b.scope
  case closed    => simp
  case command p => cases h : p.after <;> simp [h]; rfl
  case header =>
    rw [tree_recalling]
    cases b.tree.root
    case error   => rfl
    case ok root => cases h : root.after <;> simp [h]

@[simp] theorem addName_recalling (index : Int) (word : String) :
    (b.recalling before).addName index word = (b.addName index word).recalling before :=
  rfl

theorem claimNames_recalling (parent index : Int) (name : String) (ws : List (String × Int)) :
    claimNames (b.recalling before) parent index name ws =
      recalling before <$> claimNames b parent index name ws := by
  induction ws generalizing b with
  | nil => rfl
  | cons w ws hi =>
    rw [claimNames, claimNames, tree_recalling]
    cases b.tree.node index
    case error => rfl
    case ok c =>
      simp only [ok_bind, pure_eq_ok]
      by_cases h : c.aliases.contains w.1
      case pos => simp only [h, if_true, report_recalling, hi]
      case neg =>
        simp only [h, Bool.false_eq_true, if_false]
        cases b.tree.node parent
        case error => rfl
        case ok q =>
          simp only [ok_bind]
          cases b.tree.findChild q w.1
          case error => rfl
          case ok sibling =>
            cases sibling
            case none => simp only [ok_bind, addName_recalling, hi]
            case some sibling =>
              by_cases hs : sibling.index = index
              case pos =>
                simp only [ok_bind, ne_eq, hs, not_true_eq_false, if_false, addName_recalling, hi]
              case neg =>
                simp only [ok_bind, ne_eq, hs, not_false_eq_true, if_true, report_recalling, hi]

theorem place_recalling (p : PendingCommand) (parent : Command) (name function : String) :
    (b.recalling before).place p parent name function =
      recalling before <$> b.place p parent name function := by
  unfold place
  rw [tree_recalling]
  cases b.tree.findChild parent name
  case error => rfl
  case ok found =>
    cases found
    case some =>
      cases b.tree.path parent
      case error => rfl
      case ok    => simp
    case none =>
      simp only [ok_bind, Option.isSome_none, Bool.false_eq_true, if_false]
      cases b.tree.addChild parent.index _
      case error => rfl
      case ok r =>
        simp only [ok_bind]
        let added : Builder := { b with tree := r.1 }
        have hclaim : claimNames (added.recalling before) parent.index r.2 name p.aliases = _ :=
          claimNames_recalling ..
        refine Eq.trans (congrArg (· >>= _) hclaim) ?_
        cases claimNames { b with tree := r.1 } parent.index r.2 name p.aliases
        case error => rfl
        case ok b =>
          simp only [map_ok, ok_bind, tree_recalling]
          cases b.tree.node r.2
          case error => rfl
          case ok c  => exact congrArg Except.ok (reportAll_recalling (b := { b with tree := _ }) _)

theorem onFunction_recalling :
    (b.recalling before).onFunction d = recalling before <$> b.onFunction d := by
  unfold onFunction
  rw [tree_recalling, scope_recalling]
  cases b.tree.root
  case error => rfl
  case ok root =>
    simp only [ok_bind]
    split
    case h_1 p hp =>
      let closed : Builder := { b with scope := .closed }
      have hreport : ∀ q, (closed.recalling before).report d.line q = _ := report_recalling d.line
      generalize (Text.splitOnDouble ':' d.text.toList).map String.ofList = parts
      by_cases hempty : parts.contains ""
      case pos => simp only [hempty, if_true]; exact congrArg Except.ok (hreport _)
      case neg =>
        simp only [hempty]
        cases descend b.tree root [] parts.dropLast
        case error => rfl
        case ok reached =>
          cases reached
          case error missing => exact congrArg Except.ok (hreport _)
          case ok parent     => exact place_recalling (b := { b with scope := .closed }) p parent _ d.text
    case h_2 => by_cases hm : d.text = "main" ∧ root.func = none <;> simp [hm]

end Handlers

theorem feed_recalling : (b.recalling before).feed d = recalling before <$> b.feed d := by
  unfold feed
  cases d.kind
  case describe   => exact onDescribe_recalling
  case version    => exact congrArg Except.ok onMetadata_recalling
  case author     => exact congrArg Except.ok onMetadata_recalling
  case command    => exact congrArg Except.ok onCommand_recalling
  case aliases    => exact congrArg Except.ok onAliases_recalling
  case option     => exact congrArg Except.ok (onParam_recalling .option)
  case flag       => exact congrArg Except.ok (onParam_recalling .flag)
  case positional => exact congrArg Except.ok (onParam_recalling .positional)
  case env        => exact congrArg Except.ok onEnv_recalling
  case before     => exact onBefore_recalling
  case after      => exact onAfter_recalling
  case function   => exact onFunction_recalling

theorem foldlM_recalling (ds : List Directive) (b : Builder) :
    ds.foldlM feed (b.recalling before) = recalling before <$> ds.foldlM feed b := by
  induction ds generalizing b with
  | nil => rfl
  | cons d ds hi =>
    rw [List.foldlM_cons, List.foldlM_cons, feed_recalling]
    cases b.feed d
    case error => rfl
    case ok b  => exact hi b

end Builder

end ShellArgs
