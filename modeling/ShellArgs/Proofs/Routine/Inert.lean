import ShellArgs.Proofs.Builder.Flat
import ShellArgs.Proofs.Shell.Inert
import ShellArgs.Routine.Parse

-- The routines that parse words define no main function: each of their lines starts with a word
-- of the shell, with a test, with a pattern or with a variable of their own.

namespace ShellArgs

open Shell Text

-- The texts that an action writes into a line.
def Routine.Action.Flat : Routine.Action → Prop
  | raiseFlag p        => p.Flat
  | refuseValue p      => p.Flat
  | takeValues p       => p.Flat
  | takeAttached p     => p.Flat
  | showUsage _        => True
  | showVersion banner => OneLine banner
  | endOptions         => True
  | refuseLong         => True
  | splitCluster forms => ∀ f ∈ forms, OneLine f.form
  | refuseShort        => True
  | takeWord children  => ∀ c ∈ children, c.Flat

structure Routine.Arm.Flat (a : Routine.Arm) : Prop where
  patterns : ∀ p ∈ a.patterns, OneLine p.written
  action   : a.action.Flat

namespace Command.Flat

variable {c : Command}

theorem callNames (h : c.Flat) : ∀ n ∈ c.callNames, OneLine n :=
  List.forall_mem_cons.mpr ⟨h.name, h.aliases⟩

theorem options (h : c.Flat) : ∀ p ∈ c.options, p.Flat :=
  fun p hp => h.params p (List.mem_of_mem_filter hp)

theorem positionals (h : c.Flat) : ∀ p ∈ c.positionals, p.Flat :=
  fun p hp => h.params p (List.mem_of_mem_filter hp)

end Command.Flat

namespace Routine

variable {p : Param} {c : Command} {children : List Command} {o : Options} {stem : String}

theorem lead_varName (p : Param) (hs : isName stem.toList) : Lead (p.varName stem) := by
  refine .of_mem (fun c hc => ?_) (by simp [Param.varName])
  have hchar : isNameChar c := isNameChar_of_isName (p.isName_varName hs) c hc
  exact isFunctionChar_of_isPlainChar (isPlainChar_of_isNameChar hchar)

-- Arms, and what they do.
section Arms

theorem inert_repetitionGuard (hp : p.Flat) (hs : isName stem.toList) :
    Inert (repetitionGuard p stem) := by
  have hvar := (lead_varName p hs).oneLine
  unfold repetitionGuard
  split
  case isTrue => exact inert_nil
  case isFalse =>
    have hkind : OneLine (if p.isFlag then "flag" else "option") := by split <;> decide
    have htest : Lead ("[ -z " ++ expandQuoted (p.varName stem ++ "+x") ++ " ] || _argsh_die ") :=
      ((Lead.of_apart (by decide)).append (by simp +decide [hvar])).append (by decide)
    refine inert_cons.mpr ⟨inert_line (htest.append ?_), inert_nil⟩
    simp +decide [hkind, hp.primaryForm]

theorem inert_raiseFlag (hp : p.Flat) (hs : isName stem.toList) : Inert (raiseFlag p stem) := by
  have hvar := lead_varName p hs
  have hvalue : OneLine (if p.multiple then "$(( " ++ expand (p.varName stem ++ ":-0") ++ " + 1 ))"
      else "1") := by
    split
    case isTrue  => simp +decide [hvar.oneLine]
    case isFalse => decide
  simpa [raiseFlag] using ⟨inert_repetitionGuard hp hs, inert_assignLine hvar hvalue⟩

theorem inert_assignValues {var : String} {values : List String} (hvar : Lead var)
    (h : ∀ v ∈ values, OneLine v) : (assignValues p var values).Inert := by
  unfold assignValues
  split
  case isTrue  => exact inert_appendLine hvar (oneLine_array h)
  case isFalse => exact inert_assignLine hvar (oneLine_array h)

theorem inert_takeValues (hp : p.Flat) (hs : isName stem.toList) : Inert (takeValues p stem) := by
  have hvar := lead_varName p hs
  have hneed : (Statement.needValues p.primaryForm p.valuesPerOccurrence
      (expandQuoted "@:2")).line.Inert :=
    inert_needValues hp.primaryForm (by decide)
  have hassign : (if p.isArray then
      assignValues p (p.varName stem) [expandQuoted ("@:2:" ++ toString p.valuesPerOccurrence)]
      else assignLine (p.varName stem) (.scalar (doubleQuoted "$2"))).Inert := by
    split
    case isTrue  => exact inert_assignValues hvar (by simp +decide)
    case isFalse => exact inert_assignLine hvar (by decide)
  simpa [takeValues] using ⟨hneed, inert_repetitionGuard hp hs, hassign⟩

theorem inert_takeAttached (hp : p.Flat) (hs : isName stem.toList) :
    Inert (takeAttached p stem) := by
  have hvar := lead_varName p hs
  have hvalue : Lead valueVar := .of_apart (by decide)
  unfold takeAttached
  refine inert_append.mpr ⟨inert_repetitionGuard hp hs, ?_⟩
  split
  case isTrue =>
    refine inert_cons.mpr ⟨?_, by simp⟩
    split
    case isTrue  => exact inert_appendLine hvar (oneLine_array (by decide))
    case isFalse => exact inert_assignLine hvar (by decide)
  case isFalse =>
    have hneed : (Statement.needValues p.primaryForm (p.valuesPerOccurrence - 1)
        (doubleQuoted "$@")).line.Inert :=
      inert_needValues hp.primaryForm (by decide)
    have hassign : (assignValues p (p.varName stem) [doubleQuoted ("$" ++ valueVar),
        expandQuoted ("@:1:" ++ toString (p.valuesPerOccurrence - 1))]).Inert :=
      inert_assignValues hvar (by simp +decide)
    have hattached : (assignLine valueVar (.scalar (expandQuoted "1#*="))).Inert :=
      inert_assignLine hvalue (by decide)
    simpa using ⟨hattached, hneed, hassign⟩

theorem inert_clusterForm {f : ClusterForm} (h : OneLine f.form) : Inert f.lines := by
  have hwords : OneLine (if f.takesValue then quote (f.form ++ "=") ++ expandQuoted "1:2"
      else quote f.form ++ " " ++ doubleQuoted ("-" ++ expand "1:2")) := by
    split
    case isTrue  => simp +decide [h]
    case isFalse => simp +decide [h]
  have hset : Lead ("set -- " ++
      (if f.takesValue then quote (f.form ++ "=") ++ expandQuoted "1:2"
        else quote f.form ++ " " ++ doubleQuoted ("-" ++ expand "1:2")) ++
      " " ++ expandQuoted "@:2") :=
    (((Lead.of_apart (by decide)).append hwords).append (by decide)).append (by decide)
  have harm : (armLine [.exactly f.form]).Inert := inert_armLine (by simpa using oneLine_exactly h)
  simpa [ClusterForm.lines] using ⟨harm, inert_line hset⟩

theorem inert_refuse {what : String} (h : OneLine what) : (refuse what).Inert :=
  inert_line ((Lead.of_apart (by decide)).append (by simp +decide [h]))

theorem inert_splitCluster {forms : List ClusterForm} (h : ∀ f ∈ forms, OneLine f.form) :
    Inert (splitCluster forms) := by
  have hcase := inert_case (expandQuoted "1:0:2") (by decide)
  have hforms := inert_flatMap fun f hf => inert_clusterForm (h f hf)
  have hrest : (armLine [⟨[.rest]⟩]).Inert := inert_armLine (by decide)
  have hrefuse : (refuse (expand "1:0:2")).Inert := inert_refuse (by decide)
  have hesac : (line "esac").Inert := inert_line (.of_apart (by decide))
  simpa [splitCluster] using ⟨hcase, hforms, hrest, hrefuse, hesac⟩

theorem inert_childArm (h : c.Flat) : Inert (childArm c) := by
  have harm : (armLine (c.callNames.map .exactly)).Inert :=
    inert_armLine (oneLine_map_exactly h.callNames)
  have hnext : (assignLine nextVar (.scalar (parseName c.index))).Inert :=
    inert_assignLine (.of_apart (by decide)) (by simp +decide [parseName_eq])
  have hbreak : (line "break").Inert := inert_line (.of_apart (by decide))
  simpa [childArm] using ⟨harm, hnext, hbreak⟩

theorem inert_collect (words : String) (h : OneLine words) : (collect words).Inert :=
  inert_appendLine (.of_apart (by decide)) (oneLine_array (by simpa using h))

theorem inert_callChild (h : ∀ c ∈ children, c.Flat) : Inert (callChild children) := by
  unfold callChild
  split
  case isTrue => exact inert_nil
  case isFalse =>
    have hif : (line ("if [ " ++ wordCount ++ " -eq 0 ]; then")).Inert :=
      inert_line (((Lead.of_apart (by decide)).append (by decide)).append (by decide))
    have hcase := inert_case (doubleQuoted "$1") (by decide)
    have harms := inert_flatMap fun c hc => inert_childArm (h c hc)
    have hesac : (line "esac").Inert := inert_line (.of_apart (by decide))
    have hfi : (line "fi").Inert := inert_line (.of_apart (by decide))
    simpa using ⟨hif, ⟨hcase, harms, hesac⟩, hfi⟩

theorem inert_action {a : Action} (h : a.Flat) (hs : isName stem.toList) :
    Inert (a.lines stem) := by
  have hexit : (line "exit 0").Inert := inert_line (.of_apart (by decide))
  cases a
  case raiseFlag p    => exact inert_raiseFlag h hs
  case takeValues p   => exact inert_takeValues h hs
  case takeAttached p => exact inert_takeAttached h hs
  case splitCluster   => exact inert_splitCluster h
  case refuseLong     => simpa [Action.lines] using inert_refuse (by decide)
  case refuseShort    => simpa [Action.lines] using inert_refuse (by decide)
  case refuseValue p =>
    have hp : p.Flat := h
    refine inert_cons.mpr ⟨inert_line ((Lead.of_apart (by decide)).append ?_), inert_nil⟩
    simp +decide [hp.primaryForm]
  case showUsage command =>
    have husage : (line (usageName command)).Inert :=
      inert_line ((Lead.of_apart (by decide)).append oneLine_intRepr)
    simpa [Action.lines] using ⟨husage, hexit⟩
  case showVersion banner =>
    have hprint : (line ("printf '%s\\n' " ++ quote banner)).Inert :=
      inert_line ((Lead.of_apart (by decide)).append (oneLine_quote.mpr h))
    simpa [Action.lines] using ⟨hprint, hexit⟩
  case endOptions =>
    have hcollect := inert_collect (doubleQuoted "$@") (by decide)
    have hbreak : (line "break").Inert := inert_line (.of_apart (by decide))
    simpa [Action.lines] using ⟨hcollect, hbreak⟩
  case takeWord children =>
    have hcollect := inert_collect (doubleQuoted "$1") (by decide)
    simpa [Action.lines] using ⟨inert_callChild h, hcollect⟩

theorem inert_arm {a : Arm} (h : a.Flat) (hs : isName stem.toList) : Inert (a.lines stem) := by
  simpa [Arm.lines] using ⟨inert_armLine h.patterns, inert_action h.action hs⟩

theorem flat_paramArms (h : p.Flat) : ∀ a ∈ paramArms p, a.Flat := by
  have hplain := oneLine_map_exactly h.forms
  have hattached : ∀ q ∈ p.forms.map fun f => Pattern.startingWith (f ++ "="), OneLine q.written :=
    List.forall_mem_map.mpr fun f hf =>
      oneLine_startingWith (oneLine_append.mpr ⟨h.forms f hf, by decide⟩)
  unfold paramArms
  simp only
  split
  case isTrue  => simpa using ⟨⟨hplain, h⟩, ⟨hattached, h⟩⟩
  case isFalse => simpa using ⟨⟨hplain, h⟩, ⟨hattached, h⟩⟩

theorem oneLine_helpForms : ∀ f ∈ helpForms c o, OneLine f := by
  have hall : ∀ f ∈ ["-h", "--help"], OneLine f := by decide
  unfold helpForms
  split
  case isTrue  => exact fun f hf => hall f (List.mem_of_mem_filter hf)
  case isFalse => simp

theorem oneLine_versionForms : ∀ f ∈ versionForms c o, OneLine f := by
  have hall : ∀ f ∈ ["-V", "--version"], OneLine f := by decide
  unfold versionForms
  split
  case isTrue  => exact fun f hf => hall f (List.mem_of_mem_filter hf)
  case isFalse => simp

theorem oneLine_clusterForms (h : c.Flat) : ∀ f ∈ clusterForms c o, OneLine f.form := by
  intro f hf
  rcases List.mem_append.mp hf with hf | hf
  case inl =>
    obtain ⟨p, hp, hf⟩ := List.mem_filterMap.mp hf
    obtain ⟨s, hs, rfl⟩ := Option.map_eq_some_iff.mp hf
    exact (h.options p hp).short s (Option.filter_eq_some_iff.mp hs).1
  case inr =>
    obtain ⟨g, hg, hf⟩ := List.mem_filterMap.mp hf
    split at hf
    case isTrue =>
      cases hf
      exact (by decide : ∀ g ∈ ["-h", "-V"], OneLine g) g hg
    case isFalse => cases hf

theorem flat_arms (h : c.Flat) (hc : ∀ d ∈ children, d.Flat) (ho : OneLine o.prog) :
    ∀ a ∈ arms c children o, a.Flat := by
  have hbanner : OneLine (o.prog ++ " " ++ c.version.getD "") := by
    have : OneLine (c.version.getD "") := by
      cases hv : c.version
      case none   => decide
      case some v => exact h.version v hv
    simp +decide [ho, this]
  unfold arms
  simp only [List.forall_mem_append]
  refine ⟨⟨⟨⟨⟨?_, ?_⟩, ?_⟩, ?_⟩, ?_⟩, ?_⟩
  case refine_1 =>
    intro a ha
    obtain ⟨p, hp, ha⟩ := List.mem_flatMap.mp ha
    exact flat_paramArms (h.options p hp) a ha
  case refine_2 =>
    split
    case isTrue  => simp
    case isFalse => simpa using ⟨oneLine_map_exactly oneLine_helpForms, trivial⟩
  case refine_3 =>
    split
    case isTrue  => simp
    case isFalse => simpa using ⟨oneLine_map_exactly oneLine_versionForms, hbanner⟩
  case refine_4 => simpa using ⟨⟨by decide, trivial⟩, ⟨by decide, trivial⟩⟩
  case refine_5 =>
    split
    case isTrue  => simp
    case isFalse =>
      have hcluster : ∀ q ∈ [(⟨[.text "-", .charExcept '-', .char, .rest]⟩ : Pattern)],
          OneLine q.written := by decide
      simpa using ⟨hcluster, oneLine_clusterForms h⟩
  case refine_6 =>
    have hshort : ∀ q ∈ [(⟨[.text "-", .char, .rest]⟩ : Pattern)], OneLine q.written := by decide
    have hword : ∀ q ∈ [(⟨[.rest]⟩ : Pattern)], OneLine q.written := by decide
    simpa using ⟨⟨hshort, trivial⟩, ⟨hword, hc⟩⟩

end Arms

-- What binds a parameter after the words were taken apart.
section Settle

theorem oneLine_unsetTest {var : String} (h : OneLine var) : OneLine (unsetTest var) := by
  simp +decide [unsetTest, h]

theorem oneLine_setTest {var : String} (h : OneLine var) : OneLine (setTest var) := by
  simp +decide [setTest, h]

theorem oneLine_moreWordsTest (n : Nat) : OneLine (moreWordsTest n) := by
  simp +decide [moreWordsTest, wordCount]

theorem inert_assignment {value : String} (hs : isName stem.toList) (h : OneLine value) :
    (Statement.assign (assignment p stem value)).line.Inert := by
  refine inert_assign (lead_varName p hs) ?_
  unfold assignment
  split
  case isTrue  => exact oneLine_array (by simpa using h)
  case isFalse => exact h

theorem inert_positionalBinding (hs : isName stem.toList) (place : Nat) :
    Inert (positionalBinding p place stem) := by
  have hshare : OneLine (share p place).value.written := by
    unfold share
    split
    case isTrue  => exact oneLine_array (by simp +decide)
    case isFalse => simp +decide [Share.value]
  have hassign := inert_assignLine (lead_varName p hs) hshare
  exact inert_conditional (oneLine_moreWordsTest place) (by simpa using hassign)

-- What a variable of the environment gives, and when it does.
theorem inert_fromEnv? {test : String} {a : Assignment} (hp : p.Flat) (hs : isName stem.toList)
    (h : fromEnv? p stem = some (test, a)) :
    OneLine test ∧ (Statement.assign a).line.Inert := by
  obtain ⟨env, henv, h⟩ := Option.map_eq_some_iff.mp h
  have henv : OneLine env := hp.envVar env (Option.filter_eq_some_iff.mp henv).1
  split at h
  case isTrue =>
    cases h
    exact ⟨by simp +decide [henv], inert_assignment hs (by decide)⟩
  case isFalse =>
    cases h
    exact ⟨oneLine_setTest henv, inert_assignment hs (by simpa using henv)⟩

theorem inert_fromDefault? {a : Assignment} (hp : p.Flat) (hs : isName stem.toList)
    (h : fromDefault? p stem = some a) : (Statement.assign a).line.Inert := by
  unfold fromDefault? at h
  split at h
  case h_1 fn hfn =>
    cases h
    have hfn : OneLine fn := hp.defaultFn fn (Option.filter_eq_some_iff.mp hfn).1
    exact inert_assignment hs (by simp +decide [hfn])
  case h_2 v _ hv =>
    cases h
    have hv : OneLine v := hp.default v hv
    exact inert_assignment hs (by simpa using hv)
  case h_3 => cases h

theorem inert_fallback (hp : p.Flat) (hs : isName stem.toList) : Inert (fallback p stem) := by
  have hunset := oneLine_unsetTest (lead_varName p hs).oneLine
  unfold fallback
  simp only
  split
  case h_1 test env value henv hvalue =>
    have ⟨htest, henv⟩ := inert_fromEnv? hp hs henv
    have hif : (line ("if " ++ test ++ "; then")).Inert :=
      inert_line (((Lead.of_apart (by decide)).append htest).append (by decide))
    have helse : (line "else").Inert := inert_line (.of_apart (by decide))
    have hfi : (line "fi").Inert := inert_line (.of_apart (by decide))
    have hvalue := inert_fromDefault? hp hs hvalue
    exact inert_conditional hunset (by simpa using ⟨hif, henv, helse, hvalue, hfi⟩)
  case h_2 test env henv _ =>
    have ⟨htest, henv⟩ := inert_fromEnv? hp hs henv
    exact inert_conditional (by simp +decide [hunset, htest]) (by simpa using henv)
  case h_3 value _ hvalue =>
    exact inert_conditional hunset (by simpa using inert_fromDefault? hp hs hvalue)
  case h_4 => exact inert_nil

theorem inert_requiredCheck (hp : p.Flat) (hs : isName stem.toList) :
    Inert (requiredCheck p stem) := by
  have hvar := (lead_varName p hs).oneLine
  unfold requiredCheck
  split
  case isFalse => exact inert_nil
  case isTrue =>
    have hwhat : OneLine (if p.isPositional then "argument" else "option") := by split <;> decide
    have htest : Lead (setTest (p.varName stem) ++ " || _argsh_error ") := by
      unfold setTest
      exact ((((Lead.of_apart (by decide)).append (by simp +decide [hvar])).append
        (by decide)).append (by decide))
    refine inert_cons.mpr ⟨inert_line (htest.append ?_), inert_nil⟩
    simp +decide [hwhat, hp.label]

theorem lead_checkCommands (hp : p.Flat) : ∀ s ∈ checkCommands p, Lead s := by
  have hlabel : OneLine (quote p.label) := oneLine_quote.mpr hp.label
  have hvalue : OneLine (doubleQuoted ("$" ++ valueVar)) := by decide
  -- A command, the label of the parameter and the value.
  have hcheck {check : String} (h : Lead check) :
      Lead (check ++ quote p.label ++ " " ++ doubleQuoted ("$" ++ valueVar)) :=
    ((h.append hlabel).append (by decide)).append hvalue
  unfold checkCommands
  refine List.forall_mem_append.mpr ⟨?_, ?_⟩
  case refine_1 =>
    split
    case isTrue =>
      have hchoices : OneLine (" ".intercalate (p.choices.map quote)) := by
        refine oneLine_intercalate (by decide) (List.forall_mem_map.mpr fun c hc => ?_)
        exact oneLine_quote.mpr (hp.choices c hc)
      refine List.forall_mem_singleton.mpr ?_
      exact ((hcheck (.of_apart (by decide))).append (by decide)).append hchoices
    case isFalse =>
      split
      case h_1 fn hfn _ =>
        have hfn : OneLine fn := hp.choicesFn fn (Option.filter_eq_some_iff.mp hfn).1
        refine List.forall_mem_singleton.mpr ?_
        exact ((hcheck (.of_apart (by decide))).append (by decide)).append hfn
      case h_2 => simp
  case refine_2 =>
    split
    case isTrue  => exact List.forall_mem_singleton.mpr (hcheck (.of_apart (by decide)))
    case isFalse => simp

theorem inert_valueChecks (hp : p.Flat) (hs : isName stem.toList) : Inert (valueChecks p stem) := by
  have hvar := (lead_varName p hs).oneLine
  have hchecks : Inert ((checkCommands p).map line) :=
    inert_map fun s hs => inert_line (lead_checkCommands hp s hs)
  unfold valueChecks
  simp only
  split
  case isTrue => exact inert_nil
  case isFalse =>
    split
    case isTrue =>
      have hover : (Statement.overArray valueVar (p.varName stem)).line.Inert :=
        inert_overArray (by decide) hvar
      have hdone : (line "done").Inert := inert_line (.of_apart (by decide))
      simpa using ⟨hover, hchecks, hdone⟩
    case isFalse =>
      have hassign : (assignLine valueVar (.scalar (doubleQuoted ("$" ++ p.varName stem)))).Inert :=
        inert_assignLine (.of_apart (by decide)) (by simp +decide [hvar])
      exact inert_conditional (oneLine_setTest hvar) (by simpa using ⟨hassign, hchecks⟩)

theorem inert_settle (hp : p.Flat) (hs : isName stem.toList) : Inert (settle p stem) := by
  simpa [settle] using
    ⟨inert_fallback hp hs, inert_requiredCheck hp hs, inert_valueChecks hp hs⟩

end Settle

theorem inert_surplusCheck (ps : List Param) (hasChildren : Bool) :
    Inert (surplusCheck ps hasChildren) := by
  unfold surplusCheck
  split
  case h_1 => exact inert_nil
  case h_2 n _ =>
    refine inert_conditional (oneLine_moreWordsTest n) (inert_cons.mpr ⟨inert_line ?_, inert_nil⟩)
    refine (Lead.of_apart (by decide)).append (oneLine_doubleQuoted.mpr ?_)
    split
    case isTrue  => simp +decide
    case isFalse => simp +decide

theorem inert_settleAll {ps : List Param} (h : ∀ p ∈ ps, p.Flat) (hs : isName stem.toList) :
    Inert (ps.flatMap (settle · stem)) :=
  inert_flatMap fun p hp => inert_settle (h p hp) hs

theorem inert_positionalBlock (h : c.Flat) (hs : isName stem.toList) (hasChildren : Bool) :
    Inert (positionalBlock c stem hasChildren) := by
  have hbindings : Inert (c.positionals.mapIdx fun i p => positionalBinding p i stem).flatten := by
    intro l hl
    obtain ⟨ls, hls, hl⟩ := List.mem_flatten.mp hl
    obtain ⟨i, hi, rfl⟩ := List.mem_mapIdx.mp hls
    exact inert_positionalBinding hs i l hl
  simpa [positionalBlock] using
    ⟨hbindings, inert_surplusCheck _ _, inert_settleAll h.positionals hs⟩

-- Running a command. Its functions may have any names, also those of the words that count: what
-- comes after the name makes no definition of it.
section Run

variable {f : String}

theorem inert_call (hf : isFunctionName f.toList) (words : String) (hw : OneLine words) :
    (line (f ++ " " ++ expand words)).Inert := by
  refine inert_line ⟨by simp +decide [oneLine_of_isFunctionName hf, hw], ?_⟩
  intro indent rest hi
  have hdollar : ∀ c ∈ ('$' :: ((words.toList ++ "\x7d".toList).cons '\x7b' ++ rest)).head?,
      isBlank c = false ∧ isFunctionChar c = false ∧ c ≠ '(' := by
    rintro c ⟨⟩
    decide
  have : ¬ Directive.Defines "main".toList (indent ++ (f.toList ++ ([' '] ++
      '$' :: ((words.toList ++ "\x7d".toList).cons '\x7b' ++ rest)))) :=
    Directive.not_defines_of_word hi (Directive.head?_name hf)
      (Directive.isFunctionName_iff.mp hf).2 (List.forall_mem_singleton.mpr (by decide)) hdollar
  simpa [expand] using this

theorem inert_hook (hf : isFunctionName f.toList) : (line f).Inert where
  oneLine    := oneLine_of_isFunctionName hf
  undefining := by
    intro indent hi
    have : ¬ Directive.Defines "main".toList (indent ++ (f.toList ++ ([] ++ []))) :=
      Directive.not_defines_of_word hi (Directive.head?_name hf)
        (Directive.isFunctionName_iff.mp hf).2 (by simp) (by simp)
    rwa [List.nil_append, List.append_nil] at this

theorem inert_hooks {f : Option String} (hf : ∀ g, f = some g → isFunctionName g.toList) :
    Inert ((nonempty? f).toList.map line) := by
  refine inert_map fun g hg => inert_hook (hf g ?_)
  exact (Option.filter_eq_some_iff.mp (Option.mem_toList.mp hg)).1

theorem inert_runLines (h : c.Flat) (hasChildren : Bool) : Inert (runLines c hasChildren) := by
  unfold runLines
  split
  case h_1 =>
    split
    case isFalse => exact inert_nil
    case isTrue =>
      have husage : (line (usageName c.index)).Inert :=
        inert_line ((Lead.of_apart (by decide)).append oneLine_intRepr)
      have hexit : (line "exit 0").Inert := inert_line (.of_apart (by decide))
      simpa using ⟨husage, hexit⟩
  case h_2 fn hfn =>
    have hcall := inert_call (h.func fn hfn)
      (wordsVar ++ "[@]+" ++ expandQuoted (wordsVar ++ "[@]")) (by decide)
    simpa using ⟨inert_hooks h.before, hcall, inert_hooks h.after⟩

end Run

theorem inert_wordLoop (h : c.Flat) (hc : ∀ d ∈ children, d.Flat) (hs : isName o.stem.toList)
    (ho : OneLine o.prog) : Inert (wordLoop c children o) := by
  have hwhile : (line ("while [ " ++ doubleQuoted "$#" ++ " -gt 0 ]; do")).Inert :=
    inert_line (((Lead.of_apart (by decide)).append (by decide)).append (by decide))
  have hcase := inert_case (doubleQuoted "$1") (by decide)
  have harms := inert_flatMap fun a ha => inert_arm (flat_arms h hc ho a ha) hs
  have hesac : (line "esac").Inert := inert_line (.of_apart (by decide))
  have hdone : (line "done").Inert := inert_line (.of_apart (by decide))
  simpa [wordLoop] using ⟨hwhile, ⟨hcase, harms, hesac⟩, hdone⟩

theorem inert_unset (hs : isName o.stem.toList) : Inert (if c.params.isEmpty then []
    else [line ("unset " ++ " ".intercalate (c.params.map (·.varName o.stem)))]) := by
  split
  case isTrue => exact inert_nil
  case isFalse =>
    refine inert_cons.mpr ⟨inert_line ((Lead.of_apart (by decide)).append ?_), inert_nil⟩
    refine oneLine_intercalate (by decide) (List.forall_mem_map.mpr fun p _ => ?_)
    exact (lead_varName p hs).oneLine

theorem inert_callNext : Inert (conditional ("[ -n " ++ doubleQuoted ("$" ++ nextVar) ++ " ]")
    [line (doubleQuoted ("$" ++ nextVar) ++ " " ++ doubleQuoted "$@"), line "return"]) := by
  refine inert_conditional (by decide) ?_
  have hcall : Lead (doubleQuoted ("$" ++ nextVar) ++ " " ++ doubleQuoted "$@") :=
    ((Lead.doubleQuoted (by decide)).append (by decide)).append (by decide)
  simpa using ⟨inert_line hcall, inert_line (.of_apart (by decide))⟩

theorem inert_parseBody {callPath : String} (h : c.Flat) (hc : ∀ d ∈ children, d.Flat)
    (hs : isName o.stem.toList) (ho : OneLine o.prog) (hp : OneLine callPath) :
    Inert (parseBody c children o callPath) := by
  have hvalue : (line ("local " ++ valueVar ++ "=\"\" " ++ nextVar ++ "=\"\"")).Inert :=
    inert_line (((((Lead.of_apart (by decide)).append (by decide)).append (by decide)).append
      (by decide)).append (by decide))
  have hwords : (line ("local " ++ wordsVar ++ "=()")).Inert :=
    inert_line (((Lead.of_apart (by decide)).append (by decide)).append (by decide))
  have herrors : (assignLine errorsVar (.array [])).Inert :=
    inert_assignLine (.of_apart (by decide)) (by decide)
  have hblock := inert_positionalBlock h hs (!children.isEmpty)
  have hpositionals : Inert (if !children.isEmpty &&
      !(positionalBlock c o.stem (!children.isEmpty)).isEmpty
      then conditional ("[ -z " ++ doubleQuoted ("$" ++ nextVar) ++ " ]")
        (positionalBlock c o.stem (!children.isEmpty))
      else positionalBlock c o.stem (!children.isEmpty)) := by
    split
    case isTrue  => exact inert_conditional (by decide) hblock
    case isFalse => exact hblock
  have hcheck : (line ("_argsh_check_errors " ++
      quote (if (helpForms c o).isEmpty then "" else callPath))).Inert := by
    refine inert_line ((Lead.of_apart (by decide)).append (oneLine_quote.mpr ?_))
    split
    case isTrue  => decide
    case isFalse => exact hp
  have hnext : Inert (if !children.isEmpty then
      conditional ("[ -n " ++ doubleQuoted ("$" ++ nextVar) ++ " ]")
        [line (doubleQuoted ("$" ++ nextVar) ++ " " ++ doubleQuoted "$@"), line "return"]
      else []) := by
    split
    case isTrue  => exact inert_callNext
    case isFalse => exact inert_nil
  simpa only [parseBody, inert_append, inert_cons, inert_nil, and_true] using
    ⟨⟨⟨⟨⟨⟨⟨⟨⟨hvalue, hwords⟩, inert_unset hs⟩, herrors⟩, inert_wordLoop h hc hs ho⟩,
      inert_settleAll h.options hs⟩, hpositionals⟩, hcheck⟩, hnext⟩, inert_runLines h _⟩

end Routine

end ShellArgs
