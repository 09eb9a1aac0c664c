import ShellArgs.Proofs.Builder.Flat
import ShellArgs.Proofs.Routine.Capture
import ShellArgs.Proofs.Routine.Dispatch

-- What a routine does after the words were taken apart. It chooses no other routine any more, but
-- for a parameter with the variable of that choice, and for functions that are called like an
-- assignment to it.

namespace ShellArgs

namespace Routine

open Shell

variable {c : Command} {p : Param} {children : List Command} {o : Options} {stem : String}
variable {l : Line} {ls ms : List Line} {k : Int}

section Settling

variable {test : String}

theorem quiet_conditional : Without (Chooses k) (conditional test ls) ↔ Without (Chooses k) ls :=
  without_conditional (by simp) (by simp)

theorem without_positionalBindings {P : Statement → Prop} {ps : List Param}
    (h : ∀ p place, Without P (positionalBinding p place stem)) :
    Without P (ps.mapIdx fun i p => positionalBinding p i stem).flatten := by
  intro l hl
  obtain ⟨ls, hls, hl⟩ := List.mem_flatten.mp hl
  obtain ⟨i, _, rfl⟩ := List.mem_mapIdx.mp hls
  exact h _ i l hl

theorem quiet_requiredCheck : Quiet (requiredCheck p stem) := by
  intro k
  unfold requiredCheck
  split <;> simp [setTest]

theorem prefix_of_mem_checkCommands {s : String} (h : s ∈ checkCommands p) :
    "_argsh_check_".toList <+: s.toList := by
  simp only [checkCommands, List.mem_append] at h
  rcases h with h | h
  case inl =>
    split at h
    case isTrue =>
      cases List.mem_singleton.mp h
      simp
    case isFalse =>
      split at h
      case h_1 =>
        cases List.mem_singleton.mp h
        simp
      case h_2 => cases h
  case inr =>
    split at h
    case isTrue =>
      cases List.mem_singleton.mp h
      simp
    case isFalse => cases h

theorem quiet_checkCommands : Quiet ((checkCommands p).map line) := by
  refine fun k => List.forall_mem_map.mpr fun s hs => ?_
  have ⟨rest, hrest⟩ := prefix_of_mem_checkCommands hs
  exact not_chooses_text (by simp [← hrest])

theorem quiet_valueChecks : Quiet (valueChecks p stem) := by
  intro k
  simp only [valueChecks]
  split
  case isTrue  => simp
  case isFalse => split <;> simp [quiet_conditional, quiet_checkCommands k]

theorem quiet_positionalBinding {place : Nat} : Quiet (positionalBinding p place stem) := by
  intro k
  simp only [positionalBinding, quiet_conditional, share]
  split <;> simp [Share.value]

theorem quiet_surplusCheck {ps : List Param} {hasChildren : Bool} :
    Quiet (surplusCheck ps hasChildren) := by
  intro k
  unfold surplusCheck
  split
  case h_1 => simp
  case h_2 => simp [quiet_conditional]

theorem not_chooses_assignment {value : String} (h : ¬ "_".toList <+: value.toList) :
    ¬ Chooses k (.assign (assignment p stem value)) := by
  rw [chooses_assign, assignment]
  split <;> simp [ne_parseName h]

theorem not_chooses_fromEnv? {env : Assignment} (h : fromEnv? p stem = some (test, env)) :
    ¬ Chooses k (.assign env) := by
  obtain ⟨e, _, h⟩ := Option.map_eq_some_iff.mp h
  split at h
  all_goals
    cases h
    exact not_chooses_assignment (by simp [expandQuoted, doubleQuoted])

theorem quiet_fallback : Without (Chooses k) (fallback p stem) ↔
    fromDefault? p stem ≠ some ⟨nextVar, false, .scalar (parseName k)⟩ := by
  simp only [fallback]
  split
  case h_1 test env value he hv => simp [quiet_conditional, not_chooses_fromEnv? he, hv]
  case h_2 test env he hv       => simp [quiet_conditional, not_chooses_fromEnv? he, hv]
  case h_3 value he hv          => simp [quiet_conditional, hv]
  case h_4 he hv                => simp [hv]

theorem quiet_settle : Without (Chooses k) (settle p stem) ↔
    fromDefault? p stem ≠ some ⟨nextVar, false, .scalar (parseName k)⟩ := by
  simp only [settle, without_append, quiet_requiredCheck k, quiet_valueChecks k, and_true,
    quiet_fallback]

theorem quiet_positionalBlock {hasChildren : Bool} :
    Without (Chooses k) (positionalBlock c stem hasChildren) ↔ ∀ p ∈ c.positionals,
      fromDefault? p stem ≠ some ⟨nextVar, false, .scalar (parseName k)⟩ := by
  have hbindings : Without (Chooses k)
      (c.positionals.mapIdx fun i p => positionalBinding p i stem).flatten :=
    without_positionalBindings fun _ _ => quiet_positionalBinding k
  simp only [positionalBlock, without_append, hbindings, quiet_surplusCheck k, true_and,
    without_flatMap, quiet_settle]

end Settling

section Quote

theorem isPlainChar_of_mem_intRepr {c : Char} {i : Int} (h : c ∈ i.repr.toList) :
    isPlainChar c := by
  have hnat {n : Nat} (h : c ∈ n.repr.toList) : isPlainChar c :=
    isPlainChar_of_isNameChar (isNameChar_of_mem_natRepr h)
  cases i
  case ofNat n => exact hnat h
  case negSucc n =>
    rw [Int.repr, String.toList_append] at h
    obtain h | h := List.mem_append.mp h
    case inl =>
      cases List.mem_singleton.mp h
      decide
    case inr => exact hnat h

-- The names of routines need no quotes.
theorem quote_eq_parseName_iff {v : String} : quote v = parseName k ↔ v = parseName k := by
  constructor
  case mp =>
    unfold quote
    split
    case isTrue => simp
    case isFalse =>
      split
      case isTrue  => exact id
      case isFalse => simp
  case mpr =>
    rintro rfl
    refine quote_of_plain (by simp [parseName_eq]) (List.all_eq_true.mpr fun c hc => ?_)
    rw [parseName_eq, String.toList_append] at hc
    obtain hc | hc := List.mem_append.mp hc
    case inl =>
      have : "_argsh_parse_".toList.all isPlainChar := by decide
      exact List.all_eq_true.mp this c hc
    case inr => exact isPlainChar_of_mem_intRepr hc

end Quote

section Run

variable {f words : String} {hasChildren : Bool}

-- The functions that a command runs, in their order.
def functionsOf (c : Command) : List String :=
  match c.func with
  | none   => []
  | some f => (nonempty? c.before).toList ++ f :: (nonempty? c.after).toList

theorem chooses_call (hf : isFunctionName f.toList) (hw : words.toList.takeWhile (· ≠ ' ') = []) :
    Chooses k (.text (f ++ words)) ↔ nextVar ++ "=" ++ parseName k = f := by
  have hword : ∀ c ∈ f.toList, decide (c ≠ ' ') := by
    intro c hc
    have := (Directive.isFunctionName_iff.mp hf).2 c hc
    refine decide_eq_true fun he => ?_
    rw [he] at this
    revert this
    decide
  rw [Chooses, Statement.Gives, String.toList_append, List.takeWhile_append_of_pos hword, hw,
    List.append_nil, String.toList_inj, eq_comm]

theorem quiet_hook {g : Option String} (hg : ∀ f, g = some f → isFunctionName f.toList) :
    Without (Chooses k) ((nonempty? g).toList.map line) ↔
      nextVar ++ "=" ++ parseName k ∉ (nonempty? g).toList := by
  cases h : nonempty? g
  case none => simp
  case some f =>
    have hf := hg f (Option.filter_eq_some_iff.mp h).1
    have hcall : Chooses k (.text (f ++ "")) ↔ nextVar ++ "=" ++ parseName k = f :=
      chooses_call hf rfl
    rw [String.append_empty] at hcall
    simp [hcall]

theorem quiet_runLines (h : c.Flat) : Without (Chooses k) (runLines c hasChildren) ↔
    nextVar ++ "=" ++ parseName k ∉ functionsOf c := by
  cases hf : c.func
  case none =>
    simp only [runLines, functionsOf, hf]
    split <;> simp [usageName_eq]
  case some f =>
    have hcall : Chooses k (.text (f ++ " " ++
        expand (wordsVar ++ "[@]+" ++ expandQuoted (wordsVar ++ "[@]")))) ↔
          nextVar ++ "=" ++ parseName k = f := by
      rw [String.append_assoc]
      exact chooses_call (h.func f hf) (by simp)
    simp [runLines, functionsOf, hf, quiet_hook h.before, quiet_hook h.after, hcall]

end Run

section Body

variable {callPath : String}

-- What a routine does before it takes the words apart.
def opening (c : Command) (o : Options) : List Line :=
  [line ("local " ++ valueVar ++ "=\"\" " ++ nextVar ++ "=\"\""),
    line ("local " ++ wordsVar ++ "=()")] ++
    (if c.params.isEmpty then []
      else [line ("unset " ++ " ".intercalate (c.params.map (·.varName o.stem)))]) ++
    [assignLine errorsVar (.array [])]

-- What a routine does after it took the words apart.
def closing (c : Command) (children : List Command) (o : Options) (callPath : String) :
    List Line :=
  let hasChildren := !children.isEmpty
  let block := positionalBlock c o.stem hasChildren
  c.options.flatMap (settle · o.stem) ++
    (if hasChildren && !block.isEmpty then
      conditional ("[ -z " ++ doubleQuoted ("$" ++ nextVar) ++ " ]") block
    else block) ++
    [line ("_argsh_check_errors " ++ quote (if (helpForms c o).isEmpty then "" else callPath))] ++
    (if hasChildren then
      conditional ("[ -n " ++ doubleQuoted ("$" ++ nextVar) ++ " ]")
        [line (doubleQuoted ("$" ++ nextVar) ++ " " ++ doubleQuoted "$@"), line "return"]
    else []) ++
    runLines c hasChildren

theorem parseBody_eq : parseBody c children o callPath =
    opening c o ++ wordLoop c children o ++ closing c children o callPath := by
  simp only [parseBody, opening, closing, List.append_assoc]

theorem quiet_opening : Quiet (opening c o) := by
  intro k
  unfold opening
  split <;> simp

-- A routine is chosen by a default that is its name, or by a function that is called like the
-- assignment of its name.
def Diverts (c : Command) (stem : String) (k : Int) : Prop :=
  (stem = "_argsh" ∧ ∃ p ∈ c.params, p.name = "next" ∧ p.isArray = false ∧
    nonempty? p.defaultFn = none ∧ p.default = some (parseName k)) ∨
  nextVar ++ "=" ++ parseName k ∈ functionsOf c

theorem varName_eq_nextVar_iff (hs : isName stem.toList) :
    p.varName stem = nextVar ↔ stem = "_argsh" ∧ p.name = "next" := by
  rw [← varName_eq_iff hs (by decide) (by decide)]
  rfl

theorem fromDefault?_eq_some_iff (hs : isName stem.toList) :
    fromDefault? p stem = some ⟨nextVar, false, .scalar (parseName k)⟩ ↔ stem = "_argsh" ∧
      p.name = "next" ∧ p.isArray = false ∧ nonempty? p.defaultFn = none ∧
        p.default = some (parseName k) := by
  have hassign {value : String} :
      assignment p stem value = ⟨nextVar, false, .scalar (parseName k)⟩ ↔
        (stem = "_argsh" ∧ p.name = "next") ∧ p.isArray = false ∧ value = parseName k := by
    rw [← varName_eq_nextVar_iff hs, assignment]
    split <;> simp_all
  unfold fromDefault?
  split
  case h_1 fn _ hfn => simp [hassign, hfn]
  case h_2 v hfn hv => simp [hassign, quote_eq_parseName_iff, hfn, hv, and_assoc]
  case h_3 hfn hv   => simp [hv]

theorem quiet_closing (hs : isName o.stem.toList) (h : c.Flat) :
    Without (Chooses k) (closing c children o callPath) ↔ ¬ Diverts c o.stem k := by
  have hparams {P : Param → Prop} :
      (∀ p ∈ c.params, P p) ↔ (∀ p ∈ c.options, P p) ∧ ∀ p ∈ c.positionals, P p := by
    simp only [Command.options, Command.positionals, List.mem_filter]
    grind
  have hblock {hasChildren : Bool} {ls : List Line} : Without (Chooses k)
      (if hasChildren && !ls.isEmpty then
        conditional ("[ -z " ++ doubleQuoted ("$" ++ nextVar) ++ " ]") ls else ls) ↔
      Without (Chooses k) ls := by
    split
    case isTrue  => exact quiet_conditional
    case isFalse => rfl
  have hcall {hasChildren : Bool} : Without (Chooses k)
      (if hasChildren then
        conditional ("[ -n " ++ doubleQuoted ("$" ++ nextVar) ++ " ]")
          [line (doubleQuoted ("$" ++ nextVar) ++ " " ++ doubleQuoted "$@"), line "return"]
      else []) := by
    split
    case isTrue  => simp [quiet_conditional, doubleQuoted]
    case isFalse => exact without_nil
  have herrors {hint : String} :
      Without (Chooses k) [line ("_argsh_check_errors " ++ quote hint)] := by
    simp
  simp only [closing, without_append, without_flatMap, quiet_settle, hblock, quiet_positionalBlock,
    herrors, hcall, quiet_runLines h, and_true, ← hparams, ne_eq, fromDefault?_eq_some_iff hs]
  simp only [Diverts]
  grind

section Unarmed

theorem unarmed_conditional {test : String} :
    Without Statement.IsArm (conditional test ls) ↔ Without Statement.IsArm ls :=
  without_conditional id id

theorem unarmed_settle : Without Statement.IsArm (settle p stem) := by
  have hchecks : Without Statement.IsArm ((checkCommands p).map line) :=
    List.forall_mem_map.mpr fun _ _ => id
  have hfallback : Without Statement.IsArm (fallback p stem) := by
    simp only [fallback]
    split <;> simp [unarmed_conditional, Statement.IsArm]
  have hrequired : Without Statement.IsArm (requiredCheck p stem) := by
    unfold requiredCheck
    split <;> simp [Statement.IsArm]
  have hvalues : Without Statement.IsArm (valueChecks p stem) := by
    simp only [valueChecks]
    split
    case isTrue  => simp
    case isFalse => split <;> simp [unarmed_conditional, Statement.IsArm, hchecks]
  simp only [settle, without_append, hfallback, hrequired, hvalues, and_self]

theorem unarmed_positionalBlock {hasChildren : Bool} :
    Without Statement.IsArm (positionalBlock c stem hasChildren) := by
  have hbindings : Without Statement.IsArm
      (c.positionals.mapIdx fun i p => positionalBinding p i stem).flatten :=
    without_positionalBindings fun _ _ => unarmed_conditional.mpr (by simp [Statement.IsArm])
  have hsurplus {ps : List Param} : Without Statement.IsArm (surplusCheck ps hasChildren) := by
    unfold surplusCheck
    split <;> simp [unarmed_conditional, Statement.IsArm]
  simp only [positionalBlock, without_append, without_flatMap, hbindings, hsurplus, unarmed_settle,
    implies_true, and_self]

theorem unarmed_runLines {hasChildren : Bool} :
    Without Statement.IsArm (runLines c hasChildren) := by
  have hhook {g : Option String} : Without Statement.IsArm (g.toList.map line) :=
    List.forall_mem_map.mpr fun _ _ => id
  unfold runLines
  split
  case h_1 => split <;> simp [Statement.IsArm]
  case h_2 => simp [hhook, Statement.IsArm]

theorem unarmed_closing : Without Statement.IsArm (closing c children o callPath) := by
  simp only [closing, without_append, without_flatMap, unarmed_settle, unarmed_runLines,
    implies_true, true_and, and_true]
  refine ⟨⟨?_, by simp [Statement.IsArm]⟩, ?_⟩
  case refine_1 =>
    split
    case isTrue  => exact unarmed_conditional.mpr unarmed_positionalBlock
    case isFalse => exact unarmed_positionalBlock
  case refine_2 => split <;> simp [unarmed_conditional, Statement.IsArm]

end Unarmed

-- Behind lines that are no arms, nothing may be chosen.
theorem dispatches_append_iff (h : Dispatches children (ls ++ [l])) (hl : ¬ l.statement.IsArm)
    (hms : Without Statement.IsArm ms) : Dispatches children (ls ++ l :: ms) ↔ Quiet ms := by
  constructor
  case mp =>
    intro hd k m hm hc
    obtain ⟨front, back, rfl⟩ := List.append_of_mem hm
    obtain ⟨d, -, -, front', opener, he, ho⟩ :=
      hd (ls ++ l :: front) m back k (by simp) hc
    have hopener : opener ∈ l :: front := by
      have := congrArg List.getLast? he
      rw [List.getLast?_append_cons, List.getLast?_concat] at this
      exact List.mem_of_getLast? this
    have hunarmed : Without Statement.IsArm (l :: front) := by
      simp only [without_append] at hms
      exact without_cons.mpr ⟨hl, hms.1⟩
    exact hunarmed opener hopener (ho ▸ trivial)
  case mpr =>
    intro hq
    have := h.append (.of_quiet hq)
    rwa [List.append_assoc] at this

theorem dispatches_parseBody_iff (hs : isName o.stem.toList) (h : c.Flat) :
    Dispatches children (parseBody c children o callPath) ↔ ∀ k, ¬ Diverts c o.stem k := by
  have hloop : Dispatches children (opening c o ++ wordLoop c children o) :=
    (Dispatches.of_quiet quiet_opening).append dispatches_wordLoop
  obtain ⟨front, hfront⟩ : ∃ front, opening c o ++ wordLoop c children o = front ++ [line "done"] :=
    ⟨_, (List.append_assoc _ _ _).symm⟩
  rw [hfront] at hloop
  rw [parseBody_eq, hfront, List.append_assoc, List.singleton_append,
    dispatches_append_iff hloop id unarmed_closing]
  exact forall_congr' fun k => quiet_closing hs h

end Body

end Routine

end ShellArgs
