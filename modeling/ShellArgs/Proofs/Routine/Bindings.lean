import ShellArgs.Proofs.Descriptor.Usable
import ShellArgs.Proofs.Routine.Diversion
import ShellArgs.Proofs.Shell.Assigned

-- How the variable of a parameter is bound. Some parameters have an array and others a single word,
-- and all code that sets or reads the variable keeps to that.

namespace ShellArgs

namespace Shell

-- The statement sets the variable to a list although it has a single word, or the other way round.
def Statement.Misbinds (var : String) (array : Bool) (s : Statement) : Prop :=
  ∃ value, assigned? var s.written.toList = some value ∧ isList value ≠ array

variable {var s : String} {b : Bool} {ls : List Line}

theorem without_misbinds_iff : Without (Statement.Misbinds var b) ls ↔
    ∀ t ∈ written ls, ∀ value, assigned? var t.toList = some value → isList value = b := by
  simp [Without, Statement.Misbinds, written, assigned?_written]

theorem Unassigning.not_misbinds (st : Statement) (h : Unassigning st.written) :
    ¬ st.Misbinds var b := by
  rintro ⟨value, hv, _⟩
  exact Option.some_ne_none value (hv.symm.trans h.assigned?)

@[simp] theorem not_misbinds_text (h : Unassigning s) : ¬ Statement.Misbinds var b (.text s) :=
  Unassigning.not_misbinds (.text s) h

@[simp] theorem not_misbinds_shift {n : Option Nat} : ¬ Statement.Misbinds var b (.shift n) := by
  have hword : Blocked "shift " := by decide
  have halone : Unassigning "shift" := by decide
  refine Unassigning.not_misbinds _ ?_
  cases n with
  | none   => exact halone
  | some n => exact hword.append.1

@[simp] theorem not_misbinds_needValues {form words : String} {n : Nat} :
    ¬ Statement.Misbinds var b (.needValues form n words) := by
  have hword : Blocked "_argsh_need_values " := by decide
  refine Unassigning.not_misbinds _ ?_
  exact hword.append.append.append.append.append.1

theorem not_misbinds_arm {ps : List Pattern} (h : ∀ q ∈ ps, Blocked q.written) :
    ¬ Statement.Misbinds var b (.arm ps) :=
  Unassigning.not_misbinds (.arm ps) (blocked_alternatives h).1

-- An assignment counts for its own variable alone.
theorem misbinds_assign {target : String} {append : Bool} {value : Assigned}
    (h : isName target.toList) : Statement.Misbinds var b (.assign ⟨target, append, value⟩) ↔
      target = var ∧ isList value.written.toList ≠ b := by
  have hread : assigned? var (Statement.assign ⟨target, append, value⟩).written.toList =
      if target = var then some value.written.toList else none := assigned?_assignment h
  simp only [Statement.Misbinds, hread]
  split <;> simp [*]

end Shell

namespace Routine

open Shell

variable {p : Param} {stem var value : String} {b : Bool} {ls : List Line} {place : Nat}

-- The code that binds a parameter, if it is a positional at this place, or else an option or a flag.
def bindingCode (p : Param) (place : Nat) (stem : String) : List Line :=
  (if p.isPositional then positionalBinding p place stem
    else (paramArms p).flatMap (·.lines stem)) ++ fallback p stem

section Fitting

theorem fitting_conditional {test : String} :
    Without (Statement.Misbinds var b) (conditional test ls) ↔
      Without (Statement.Misbinds var b) ls := by
  have hif : Blocked "if " := by decide
  exact without_conditional (not_misbinds_text hif.append.append.1) (not_misbinds_text (by decide))

theorem fitting_repetitionGuard : Without (Statement.Misbinds var b) (repetitionGuard p stem) := by
  have htest : Blocked "[ -z " := by decide
  unfold repetitionGuard
  split
  case isTrue  => exact without_nil
  case isFalse =>
    exact without_cons.mpr ⟨not_misbinds_text htest.append.append.append.1, without_nil⟩

theorem fitting_arm {ps : List Pattern} {a : Action} (h : ∀ q ∈ ps, Blocked q.written) :
    Without (Statement.Misbinds var b) (Arm.lines ⟨ps, a⟩ stem) ↔
      Without (Statement.Misbinds var b) (a.lines stem) := by
  have hend : ¬ Statement.Misbinds var b (.text ";;") := not_misbinds_text (by decide)
  simp [Arm.lines, not_misbinds_arm h, armEnd, hend]

theorem isArray_eq : p.isArray = (!p.isFlag && (p.multiple || decide (1 < p.valuesPerOccurrence))) :=
  rfl

section Own

variable (hs : isName stem.toList)

include hs

theorem fits_array {append : Bool} {ws : List String} (hp : p.isArray) (h : ∀ w ∈ ws, Inside w) :
    ¬ Statement.Misbinds var p.isArray (.assign ⟨p.varName stem, append, .array ws⟩) := by
  rw [misbinds_assign (p.isName_varName hs), isList_array h, hp]
  simp

theorem fits_scalar {append : Bool} {w : String} (hp : p.isArray = false)
    (h : w.toList.head? ≠ some '(') :
    ¬ Statement.Misbinds var p.isArray (.assign ⟨p.varName stem, append, .scalar w⟩) := by
  rw [misbinds_assign (p.isName_varName hs), isList_scalar h, hp]
  simp

theorem fits_assignment (h : Inside value) (hv : value.toList.head? ≠ some '(') :
    ¬ Statement.Misbinds var p.isArray (.assign (assignment p stem value)) := by
  unfold assignment
  split
  case isTrue hp  => exact fits_array hs hp (by simpa using h)
  case isFalse hp => exact fits_scalar hs (by simpa using hp) hv

theorem fits_assignValues {ws : List String} (hp : p.isArray) (h : ∀ w ∈ ws, Inside w) :
    ¬ Statement.Misbinds var p.isArray (assignValues p (p.varName stem) ws).statement := by
  unfold assignValues
  split
  case isTrue  => exact fits_array hs hp h
  case isFalse => exact fits_array hs hp h

theorem fitting_raiseFlag (h : p.isFlag) :
    Without (Statement.Misbinds var p.isArray) (raiseFlag p stem) := by
  have hp : p.isArray = false := by simp [isArray_eq, h]
  have hvalue : (if p.multiple then "$(( " ++ expand (p.varName stem ++ ":-0") ++ " + 1 ))"
      else "1").toList.head? ≠ some '(' := by
    split <;> simp
  simpa [raiseFlag, fitting_repetitionGuard] using fits_scalar hs hp hvalue

theorem fitting_takeValues : Without (Statement.Misbinds var p.isArray) (takeValues p stem) := by
  have hvalues : Inside (expandQuoted ("@:2:" ++ toString p.valuesPerOccurrence)) :=
    inside_expandQuoted (Quotable.append (by decide) (quotable_natRepr _))
  have hassign : ¬ Statement.Misbinds var p.isArray (if p.isArray then
      assignValues p (p.varName stem) [expandQuoted ("@:2:" ++ toString p.valuesPerOccurrence)]
      else assignLine (p.varName stem) (.scalar (doubleQuoted "$2"))).statement := by
    split
    case isTrue hp  => exact fits_assignValues hs hp (by simpa using hvalues)
    case isFalse hp => exact fits_scalar hs (by simpa using hp) head?_doubleQuoted
  simpa [takeValues, fitting_repetitionGuard] using hassign

theorem fits_share : p.isPositional →
    ¬ Statement.Misbinds var p.isArray (.assign ⟨p.varName stem, false, (share p place).value⟩) := by
  intro h
  have hkind : p.kind = .positional := by simpa [Param.isPositional] using h
  have hp : p.isArray = p.multiple := by
    simp [isArray_eq, Param.isFlag, Param.valuesPerOccurrence, hkind]
  unfold share
  split
  case isTrue hm =>
    refine fits_array hs (hp.trans hm) (List.forall_mem_singleton.mpr (inside_expandQuoted ?_))
    exact Quotable.append (by decide) (quotable_natRepr _)
  case isFalse hm =>
    exact fits_scalar hs (hp.trans (by simpa using hm)) head?_doubleQuoted

theorem fits_fromDefault? {a : Assignment}
    (hf : ∀ f, p.defaultFn = some f → ∀ c ∈ f.toList, isFunctionChar c)
    (h : fromDefault? p stem = some a) : ¬ Statement.Misbinds var p.isArray (.assign a) := by
  unfold fromDefault? at h
  split at h
  case h_1 fn hfn =>
    cases h
    have hchars := hf fn (Option.filter_eq_some_iff.mp hfn).1
    have hfn : Quotable ("$(" ++ fn ++ ")") :=
      (Quotable.append (by decide) (quotable_of_forall hchars (by decide))).append (by decide)
    exact fits_assignment hs hfn.inside head?_doubleQuoted
  case h_2 =>
    cases h
    exact fits_assignment hs inside_quote head?_quote
  case h_3 => cases h

theorem fits_fromEnv? {a : Assignment} {test : String}
    (he : ∀ v, p.envVar = some v → ∀ c ∈ v.toList, isNameChar c)
    (h : fromEnv? p stem = some (test, a)) : ¬ Statement.Misbinds var p.isArray (.assign a) := by
  obtain ⟨env, henv, h⟩ := Option.map_eq_some_iff.mp h
  split at h
  case isTrue =>
    cases h
    exact fits_assignment hs (fun rest => by simp [afterList?]) (by decide)
  case isFalse =>
    cases h
    have hchars := he env (Option.filter_eq_some_iff.mp henv).1
    exact fits_assignment hs (inside_expandQuoted (quotable_of_forall hchars (by decide)))
      head?_doubleQuoted

theorem fitting_fallback (hf : ∀ f, p.defaultFn = some f → ∀ c ∈ f.toList, isFunctionChar c)
    (he : ∀ v, p.envVar = some v → ∀ c ∈ v.toList, isNameChar c) :
    Without (Statement.Misbinds var p.isArray) (fallback p stem) := by
  have hif : Blocked "if " := by decide
  have helse : Unassigning "else" := by decide
  have hfi : Unassigning "fi" := by decide
  simp only [fallback]
  split
  case h_1 test env value henv hvalue =>
    simp [fitting_conditional, fits_fromEnv? hs he henv, fits_fromDefault? hs hf hvalue, helse, hfi,
      hif.append.append.1]
  case h_2 test env henv _  => simp [fitting_conditional, fits_fromEnv? hs he henv]
  case h_3 value _ hvalue   => simp [fitting_conditional, fits_fromDefault? hs hf hvalue]
  case h_4                  => simp

-- The value that is attached to an option is put into a variable of its own first.
theorem fitting_takeAttached (h : p.isFlag = false) :
    Without (Statement.Misbinds (p.varName stem) p.isArray) (takeAttached p stem) ↔
      ¬ (p.varName stem = valueVar ∧ 1 < p.valuesPerOccurrence) := by
  have hattached : Inside (expandQuoted "1#*=") := inside_expandQuoted (by decide)
  simp only [takeAttached, without_append, fitting_repetitionGuard, true_and]
  split
  case isTrue hn =>
    have hassign : ¬ Statement.Misbinds (p.varName stem) p.isArray (if p.isArray then
        appendLine (p.varName stem) (.array [expandQuoted "1#*="])
        else assignLine (p.varName stem) (.scalar (expandQuoted "1#*="))).statement := by
      split
      case isTrue hp  => exact fits_array hs hp (by simpa using hattached)
      case isFalse hp => exact fits_scalar hs (by simpa using hp) head?_doubleQuoted
    have hone : ¬ 1 < p.valuesPerOccurrence := by omega
    simp [hassign, hone]
  case isFalse hn =>
    have hmany : 1 < p.valuesPerOccurrence := by omega
    have hp : p.isArray := by simp [isArray_eq, h, hmany]
    have hvalue : Statement.Misbinds (p.varName stem) p.isArray
        (.assign ⟨valueVar, false, .scalar (expandQuoted "1#*=")⟩) ↔ p.varName stem = valueVar := by
      have hscalar : isList (Assigned.scalar (expandQuoted "1#*=")).written.toList = false :=
        isList_scalar head?_doubleQuoted
      rw [misbinds_assign (by decide), hscalar, hp]
      simp [eq_comm]
    have hrest : Inside (expandQuoted ("@:1:" ++ toString (p.valuesPerOccurrence - 1))) :=
      inside_expandQuoted (Quotable.append (by decide) (quotable_natRepr _))
    have hall : ∀ w ∈ [doubleQuoted ("$" ++ valueVar),
        expandQuoted ("@:1:" ++ toString (p.valuesPerOccurrence - 1))], Inside w := by
      have hown : Inside (doubleQuoted ("$" ++ valueVar)) := Quotable.inside (by decide)
      simpa using ⟨hown, hrest⟩
    have hassign : ¬ Statement.Misbinds (p.varName stem) p.isArray (assignValues p (p.varName stem)
        [doubleQuoted ("$" ++ valueVar),
          expandQuoted ("@:1:" ++ toString (p.valuesPerOccurrence - 1))]).statement :=
      fits_assignValues hs hp hall
    simp only [without_cons, without_nil, statement_assignLine, hvalue, statement_shiftLine,
      not_misbinds_shift, Statement.statement_line, not_misbinds_needValues, hassign, hmany,
      not_false_eq_true, and_true]

theorem fitting_paramArms {k : ParamKind} (d : p.Declared k) :
    Without (Statement.Misbinds (p.varName stem) p.isArray) ((paramArms p).flatMap (·.lines stem)) ↔
      ¬ (p.varName stem = valueVar ∧ p.isFlag = false ∧ 1 < p.valuesPerOccurrence) := by
  have hform {f : String} (hf : f ∈ p.forms) : f.toList.head? = some '-' := by
    obtain ⟨c, cs, hc⟩ := (d.isForm hf).toList_eq
    simp [hc]
  have hplain : ∀ q ∈ p.forms.map Pattern.exactly, Blocked q.written :=
    List.forall_mem_map.mpr fun f hf => blocked_exactly (hform hf)
  have hattached : ∀ q ∈ p.forms.map fun f => Pattern.startingWith (f ++ "="), Blocked q.written :=
    List.forall_mem_map.mpr fun f hf => blocked_startingWith (by simp [hform hf])
  unfold paramArms
  simp only
  split
  case isTrue h =>
    have hdie : Blocked "_argsh_die " := by decide
    simp [fitting_arm hplain, fitting_arm hattached, Action.lines, fitting_raiseFlag hs h,
      hdie.append.1, h]
  case isFalse h =>
    have hflag : p.isFlag = false := by simpa using h
    simp [fitting_arm hplain, fitting_arm hattached, Action.lines, fitting_takeValues hs,
      fitting_takeAttached hs hflag, hflag]

end Own

end Fitting

section Fits

variable {k : ParamKind} {text : String} {n : Int}

theorem varName_eq_valueVar_iff (hs : isName stem.toList) :
    p.varName stem = valueVar ↔ stem = "_argsh" ∧ p.name = "value" := by
  rw [← varName_eq_iff hs (by decide) (by decide)]
  rfl

-- Only the variable for the value at hand gets what is none of its own.
theorem fitting_bindingCode (h : Descriptor.read k text n = .ok p) (hs : isName stem.toList) :
    Without (Statement.Misbinds (p.varName stem) p.isArray) (bindingCode p place stem) ↔
      ¬ (stem = "_argsh" ∧ p.name = "value" ∧ 1 < p.valuesPerOccurrence) := by
  have ⟨hf, he⟩ := Descriptor.names_of_read h
  have hfallback : Without (Statement.Misbinds (p.varName stem) p.isArray) (fallback p stem) :=
    fitting_fallback hs hf he
  have hmany (hn : 1 < p.valuesPerOccurrence) : p.isPositional = false ∧ p.isFlag = false := by
    cases hk : p.kind <;> simp [Param.valuesPerOccurrence, hk, Param.isPositional, Param.isFlag] at hn ⊢
  rw [bindingCode, without_append, ← and_assoc, ← varName_eq_valueVar_iff hs]
  simp only [hfallback, and_true]
  split
  case isTrue hp =>
    have hbinding : Without (Statement.Misbinds (p.varName stem) p.isArray)
        (positionalBinding p place stem) := by
      simpa [positionalBinding, fitting_conditional] using fits_share hs hp
    have hone : ¬ 1 < p.valuesPerOccurrence := fun hn => by simp [(hmany hn).1] at hp
    simp [hbinding, hone]
  case isFalse hp =>
    rw [fitting_paramArms hs (Descriptor.declared_of_read h)]
    have := hmany
    grind

end Fits

-- What is done to variables and words, in its order.
section Acting

def acts : Statement → Bool
  | .text _ => false
  | .arm _  => false
  | _       => true

def acting (ls : List Line) : List Statement :=
  (ls.map (·.statement)).filter acts

variable {ms : List Line} {l : Line} {test : String}

@[simp] theorem acting_nil : acting [] = [] :=
  rfl

@[simp] theorem acting_cons : acting (l :: ls) =
    if acts l.statement then l.statement :: acting ls else acting ls :=
  List.filter_cons

@[simp] theorem acting_append : acting (ls ++ ms) = acting ls ++ acting ms := by
  simp [acting]

@[simp] theorem acting_indent : acting (indent ls) = acting ls := by
  simp [acting, indent, Function.comp_def]

@[simp] theorem acting_texts {ss : List String} : acting (ss.map line) = [] := by
  simp [acting, acts]

@[simp] theorem acting_conditional : acting (conditional test ls) = acting ls := by
  simp [conditional, acts]

@[simp] theorem acting_repetitionGuard : acting (repetitionGuard p stem) = [] := by
  unfold repetitionGuard
  split <;> simp [acts]

@[simp] theorem acting_arm {a : Arm} : acting (a.lines stem) = acting (a.action.lines stem) := by
  simp [Arm.lines, armEnd, acts]

-- There is nothing to check of a flag.
theorem isFlag_eq_false_of_checkCommands (s : p.Settled) (h : checkCommands p ≠ []) :
    p.isFlag = false := by
  refine Bool.eq_false_iff.mpr fun hf => h ?_
  have ⟨_, _, _, hchoices, hfn, hnames⟩ := s.flag (by simpa [Param.isFlag] using hf)
  simp [checkCommands, hchoices, hfn, hnames, nonempty?, Param.valueHint]

-- The checks read all elements of an array, or else a single word.
theorem acting_valueChecks (s : p.Settled) (h : checkCommands p ≠ []) :
    acting (valueChecks p stem) = [if p.isArray then .overArray valueVar (p.varName stem)
      else .assign ⟨valueVar, false, .scalar (doubleQuoted ("$" ++ p.varName stem))⟩] := by
  have hchecks : ((checkCommands p).map line).isEmpty = false := by simpa using h
  have hflag := isFlag_eq_false_of_checkCommands s h
  simp only [valueChecks, hflag, hchecks, Bool.or_self, Bool.false_eq_true, if_false]
  split <;> simp [acts]

end Acting

-- What a word between double quotes stands for, where these are the words that are left.
inductive Expands (words : List String) : String → List String → Prop
  | word {i : Nat} {w : String} (hi : i < 9) (hw : words[i]? = some w) :
      Expands words (doubleQuoted ("$" ++ toString (i + 1))) [w]
  | slice {i n : Nat} : Expands words (expandQuoted ("@:" ++ toString (i + 1) ++ ":" ++ toString n))
      ((words.drop i).take n)
  | tail {i : Nat} : Expands words (expandQuoted ("@:" ++ toString (i + 1))) (words.drop i)

-- The values that a variable is given there.
inductive Holds (words : List String) : Assigned → List String → Prop
  | scalar {w v : String} (h : Expands words w [v]) : Holds words (.scalar w) [v]
  | array {w : String} {vs : List String} (h : Expands words w vs) : Holds words (.array [w]) vs

-- Asks for some values behind the first word, gives them to the variable and drops them together
-- with the first word.
inductive Consumes (var : String) (n : Nat) (ls : List Line) : Prop
  | intro {form words : String} {append : Bool} {value : Assigned}
    (steps : acting ls =
      [.needValues form n words, .assign ⟨var, append, value⟩, .shift (some (n + 1))])
    (asks : ∀ first rest, Expands (first :: rest) words rest)
    (gives : ∀ first values rest, values.length = n →
      Holds (first :: (values ++ rest)) value values)

theorem Consumes.of_acting {n : Nat} {ms : List Line} (he : acting ms = acting ls) :
    Consumes var n ls → Consumes var n ms
  | .intro steps asks gives => .intro (he.trans steps) asks gives

theorem statement_assignValues {ws : List String} :
    (assignValues p var ws).statement = .assign ⟨var, p.multiple, .array ws⟩ := by
  unfold assignValues
  split <;> simp [*]

theorem valuesPerOccurrence_of_not_isArray (h : p.kind = .option) (hp : p.isArray = false) :
    p.valuesPerOccurrence = 1 := by
  have hflag : p.isFlag = false := by simp [Param.isFlag, h]
  have hpos : 1 ≤ p.valuesPerOccurrence := by simp [Param.valuesPerOccurrence, h]
  have hmost : ¬ 1 < p.valuesPerOccurrence := fun hn => by simp [isArray_eq, hflag, hn] at hp
  omega

theorem consumes_takeValues (h : p.kind = .option) :
    Consumes (p.varName stem) p.valuesPerOccurrence (takeValues p stem) := by
  have hall (first : String) (rest : List String) :
      Expands (first :: rest) (expandQuoted "@:2") rest := .tail (i := 1)
  by_cases hp : p.isArray
  case pos =>
    have hsteps : acting (takeValues p stem) =
        [.needValues p.primaryForm p.valuesPerOccurrence (expandQuoted "@:2"),
          .assign ⟨p.varName stem, p.multiple,
            .array [expandQuoted ("@:2:" ++ toString p.valuesPerOccurrence)]⟩,
          .shift (some (p.valuesPerOccurrence + 1))] := by
      simp [takeValues, hp, statement_assignValues, acts]
    refine .intro hsteps hall fun first values rest hv => .array ?_
    have hslice : Expands (first :: (values ++ rest))
        (expandQuoted ("@:" ++ toString (1 + 1) ++ ":" ++ toString p.valuesPerOccurrence))
          (((first :: (values ++ rest)).drop 1).take p.valuesPerOccurrence) := .slice
    have hstart : "@:" ++ toString (1 + 1) ++ ":" = "@:2:" := by decide
    rwa [hstart, List.drop_one, List.tail_cons, ← hv, List.take_left, hv] at hslice
  case neg =>
    have hp : p.isArray = false := by simpa using hp
    have hsteps : acting (takeValues p stem) =
        [.needValues p.primaryForm p.valuesPerOccurrence (expandQuoted "@:2"),
          .assign ⟨p.varName stem, false, .scalar (doubleQuoted "$2")⟩,
          .shift (some (p.valuesPerOccurrence + 1))] := by
      simp [takeValues, hp, acts]
    refine .intro hsteps hall fun first values rest hv => ?_
    have hone := hv.trans (valuesPerOccurrence_of_not_isArray h hp)
    obtain ⟨v, rfl⟩ := List.length_eq_one_iff.mp hone
    exact .scalar (.word (i := 1) (by decide) rfl)

-- All code that binds a parameter agrees on what its variable is, an array or a single word, but for
-- one name of the variable: the routine puts a value that is attached to an option there first, although
-- the option has several. An option takes the values that it asks for from the words behind it, and a
-- flag none.
theorem bound_alike {k : ParamKind} {text : String} {n : Int}
    (h : Descriptor.read k text n = .ok p) (hs : isName stem.toList) (place : Nat) :
    ((∀ code ∈ written (bindingCode p place stem), ∀ value,
        assigned? (p.varName stem) code.toList = some value → isList value = p.isArray) ↔
      ¬ (stem = "_argsh" ∧ p.name = "value" ∧ 1 < p.valuesPerOccurrence)) ∧
    (checkCommands p ≠ [] → acting (valueChecks p stem) =
      [if p.isArray then .overArray valueVar (p.varName stem)
        else .assign ⟨valueVar, false, .scalar (doubleQuoted ("$" ++ p.varName stem))⟩]) ∧
    (p.kind = .option → ∃ spaced attached, paramArms p = [spaced, attached] ∧
      spaced.patterns = p.forms.map .exactly ∧
      attached.patterns = p.forms.map (fun f => .startingWith (f ++ "=")) ∧
      Consumes (p.varName stem) p.valuesPerOccurrence (spaced.lines stem)) ∧
    (p.kind = .flag → p.valuesPerOccurrence = 0 ∧ ∃ plain attached value,
      paramArms p = [plain, attached] ∧ plain.patterns = p.forms.map .exactly ∧
      acting (plain.lines stem) = [.assign ⟨p.varName stem, false, .scalar value⟩, .shift none]) := by
  refine ⟨?bindings, ?checks, ?option, ?flag⟩
  case bindings =>
    rw [← without_misbinds_iff]
    exact fitting_bindingCode h hs
  case checks =>
    have hd : Param.Declares (fun _ => True) k p := Descriptor.declares_of_read h fun _ _ => trivial
    exact acting_valueChecks hd.settled
  case option =>
    intro hk
    have harms : paramArms p = [⟨p.forms.map .exactly, .takeValues p⟩,
        ⟨p.forms.map fun f => .startingWith (f ++ "="), .takeAttached p⟩] := by
      simp [paramArms, Param.isFlag, hk]
    exact ⟨_, _, harms, rfl, rfl, (consumes_takeValues hk).of_acting acting_arm⟩
  case flag =>
    intro hk
    have harms : paramArms p = [⟨p.forms.map .exactly, .raiseFlag p⟩,
        ⟨p.forms.map fun f => .startingWith (f ++ "="), .refuseValue p⟩] := by
      simp [paramArms, Param.isFlag, hk]
    have hnone : p.valuesPerOccurrence = 0 := by simp [Param.valuesPerOccurrence, hk]
    exact ⟨hnone, _, _, _, harms, rfl, by simp [Action.lines, raiseFlag, acts]; rfl⟩

-- A pair of values, and the variable that the first one of them is put into.
theorem bound_alike_value : isName "_argsh".toList ∧ ∃ p,
    Descriptor.read .option "--value <X> <Y>" 0 = .ok p ∧ p.isArray ∧
    ¬ ∀ code ∈ written (bindingCode p 0 "_argsh"), ∀ value,
      assigned? (p.varName "_argsh") code.toList = some value → isList value = p.isArray := by
  have hs : isName "_argsh".toList := by decide
  have hread : Descriptor.read .option "--value <X> <Y>" 0 = .ok
      { name := "value", kind := .option, long := some "--value", valueNames := ["X", "Y"] } := by
    decide +kernel
  refine ⟨hs, _, hread, by decide, ?_⟩
  rw [(bound_alike hread hs 0).1]
  exact not_not_intro ⟨rfl, rfl, by decide⟩

end Routine

end ShellArgs
