import Mathlib.Data.List.Nodup
import Mathlib.Data.List.Pairwise
import ShellArgs.Proofs.Tree.Growth
import ShellArgs.Proofs.Tree.Validation

-- Which trees are rejected. Errors are found exactly in trees with a command that breaks a
-- rule, no matter which other rules it breaks.

namespace ShellArgs

open Outcome

-- Values that a parameter must not have. A default counts even if its text is empty, while a
-- function for choices without a name is none.
inductive Param.Misvalued (p : Param) : Prop
  | flagDefault (hk : p.isFlag) (hd : p.hasDefault)
  | flagChoices (hk : p.isFlag) (hc : p.choices ≠ [] ∨ nonempty? p.choicesFn ≠ none)
  | requiredDefault (hk : p.isFlag = false) (hr : p.required) (hd : p.hasDefault)
  | defaultNoChoice (hk : p.isFlag = false) (hd : p.default = some v) (hc : p.choices ≠ [])
      (hv : v ∉ p.choices)
  | defaultNoNumber (hk : p.isFlag = false) (hd : p.default = some v) (hh : p.valueHint = .number)
      (hv : isNumberText v = false)

-- The rules for the parameters of a command. The parameters of a pair come in this order,
-- with any others in between.
inductive Command.Breaks (c : Command) : Prop
  | repeatedForm (h : ¬ (c.params.flatMap (·.forms)).Nodup)
  | sharedVariable (h : [p, q].Sublist c.params)
      (hn : Shell.nearestName p.name = Shell.nearestName q.name)
  | value (hp : p ∈ c.params) (h : p.Misvalued)
  | afterVariadic (h : [p, q].Sublist c.positionals) (hp : p.multiple)
  | requiredAfterOptional (h : [p, q].Sublist c.positionals) (hp : p.required = false)
      (hq : q.required)

-- Errors are no warnings.
theorem Severity.forall_warning_iff {α : Type} {as : List α} {s : α → Severity}
    (h : ∀ a ∈ as, s a = .error) : (∀ a ∈ as, s a = .warning) ↔ as = [] := by
  constructor
  · intro hw
    apply List.eq_nil_iff_forall_not_mem.mpr
    intro a ha
    cases (hw a ha).symm.trans (h a ha)
  · rintro rfl
    simp

namespace Param

variable {p q : Param} {owner : String} {earlier : List Param}

-- Parameters that can be told apart by their forms and by their variables.
structure Apart (p q : Param) : Prop where
  forms : p.forms.Disjoint q.forms
  names : Shell.nearestName p.name ≠ Shell.nearestName q.name

-- Nothing follows a variadic positional, and nothing required follows an optional one.
def Precedes (p q : Param) : Prop :=
  p.multiple = false ∧ (p.required = false → q.required = false)

theorem formViolations_eq_nil_iff : p.formViolations owner earlier = [] ↔
    p.forms.Nodup ∧ ∀ q ∈ earlier, q.forms.Disjoint p.forms := by
  suffices ∀ own fs, formViolations.go p owner earlier own fs = [] ↔
      (∀ f ∈ fs, f ∉ own) ∧ fs.Nodup ∧ ∀ f ∈ fs, ∀ q ∈ earlier, f ∉ q.forms by
    rw [formViolations, this]
    simp only [List.not_mem_nil, not_false_eq_true, implies_true, true_and, List.Disjoint]
    tauto
  intro own fs
  induction fs generalizing own
  case nil => simp [formViolations.go]
  case cons f fs hi =>
    unfold formViolations.go
    split
    case h_1 q hq =>
      have hm := List.mem_of_find?_eq_some hq
      have hf : f ∈ q.forms := by simpa using List.find?_some hq
      simp only [List.cons_ne_nil, List.mem_cons, false_iff]
      exact fun h => h.2.2 f (.inl rfl) q hm hf
    case h_2 hq =>
      have hq : ∀ q ∈ earlier, f ∉ q.forms := by simpa using hq
      split
      case isTrue ho =>
        have ho : f ∈ own := by simpa using ho
        simp [ho]
      case isFalse ho =>
        have ho : f ∉ own := by simpa using ho
        simp only [hi, List.mem_cons, List.nodup_cons]
        grind

theorem nameViolations_eq_nil_iff : p.nameViolations owner earlier = [] ↔
    ∀ q ∈ earlier, Shell.nearestName q.name ≠ Shell.nearestName p.name := by
  unfold nameViolations
  split
  case isTrue h =>
    have ⟨q, hq, hn⟩ : ∃ q ∈ earlier, q.name = p.name := by simpa using h
    simp only [List.cons_ne_nil, false_iff, not_forall]
    exact ⟨q, hq, fun hne => hne (by rw [hn])⟩
  case isFalse =>
    simp only
    split
    case h_1 q hq =>
      have hm := List.mem_of_find?_eq_some hq
      have hn : Shell.nearestName q.name = Shell.nearestName p.name := by simpa using List.find?_some hq
      simp only [List.cons_ne_nil, false_iff, not_forall]
      exact ⟨q, hm, fun hne => hne hn⟩
    case h_2 hq => simpa using hq

theorem misvalued_iff_of_flag (hk : p.isFlag) :
    p.Misvalued ↔ p.hasDefault ∨ p.choices ≠ [] ∨ nonempty? p.choicesFn ≠ none := by
  constructor
  · intro h
    cases h <;> simp_all
  · rintro (hd | hc)
    · exact .flagDefault hk hd
    · exact .flagChoices hk hc

theorem misvalued_iff_of_not_flag (hk : p.isFlag = false) :
    p.Misvalued ↔ p.required ∧ p.hasDefault ∨ ∃ v, p.default = some v ∧
      (p.choices ≠ [] ∧ v ∉ p.choices ∨ p.valueHint = .number ∧ isNumberText v = false) := by
  constructor
  · intro h
    cases h <;> simp_all
  · rintro (⟨hr, hd⟩ | ⟨v, hd, ⟨hc, hv⟩ | ⟨hh, hv⟩⟩)
    · exact .requiredDefault hk hr hd
    · exact .defaultNoChoice hk hd hc hv
    · exact .defaultNoNumber hk hd hh hv

theorem valueViolations_eq_nil_iff : p.valueViolations owner = [] ↔ ¬ p.Misvalued := by
  unfold valueViolations
  split
  case isTrue hk =>
    rw [misvalued_iff_of_flag hk]
    simp [Option.eq_none_iff_forall_ne_some]
  case isFalse hk =>
    rw [misvalued_iff_of_not_flag (by simpa using hk)]
    cases p.default
    case none   => simp
    case some v => simp

-- All but a binding that is shared are errors.
theorem violations_warn_iff : (∀ f ∈ p.violations owner earlier, f.violation.severity = .warning) ↔
    (∀ q ∈ earlier, q.Apart p) ∧ p.forms.Nodup ∧ ¬ p.Misvalued := by
  simp only [violations, List.forall_mem_map, List.forall_mem_append]
  rw [Severity.forall_warning_iff fun _ h => (Tree.of_mem_formViolations h).2,
    Severity.forall_warning_iff fun _ h => (Tree.of_mem_nameViolations h).2,
    Severity.forall_warning_iff fun _ h => (Tree.of_mem_valueViolations h).2,
    formViolations_eq_nil_iff, nameViolations_eq_nil_iff, valueViolations_eq_nil_iff]
  have henv : ∀ v ∈ p.envViolations owner earlier, v.severity = .warning :=
    fun _ h => (Tree.of_mem_envViolations h).2
  constructor
  · rintro ⟨⟨⟨⟨hf, hd⟩, hn⟩, _⟩, hv⟩
    exact ⟨fun q hq => ⟨hd q hq, hn q hq⟩, hf, hv⟩
  · rintro ⟨ha, hf, hv⟩
    exact ⟨⟨⟨⟨hf, fun q hq => (ha q hq).forms⟩, fun q hq => (ha q hq).names⟩, henv⟩, hv⟩

end Param

namespace Tree

-- Trees that are made from the root on, command by command and parameter by parameter.
inductive Grown : Tree → Prop
  | empty : Grown .empty
  | child {p : Nat} (g : Grown t) (hp : t.nodes[p]? = some d) (hc : c.children = [])
      (ha : c.aliases.Nodup) (hf : ∀ e, t.Below d e → ∀ w ∈ c.callNames, w ∉ e.callNames)
      (h : t.addChild p c = .ok (t', i)) : Grown t'
  | param (g : Grown t) (p : Nat) (q : Param) : Grown (t.modify p (·.addParam q))

variable {t : Tree} {c : Command} {owner : String}

theorem paramFindings_warn_iff {earlier ps : List Param} :
    (∀ f ∈ paramFindings owner earlier ps, f.violation.severity = .warning) ↔
      (∀ p ∈ ps, ∀ q ∈ earlier, q.Apart p) ∧ ps.Pairwise Param.Apart ∧
        ∀ p ∈ ps, p.forms.Nodup ∧ ¬ p.Misvalued := by
  induction ps generalizing earlier
  case nil => simp [paramFindings]
  case cons p ps hi =>
    simp only [paramFindings, List.forall_mem_append, Param.violations_warn_iff, hi,
      List.forall_mem_cons, List.pairwise_cons]
    grind

theorem orderFindings_eq_nil_iff {variadic optional : Option Param} {ps : List Param} :
    orderFindings owner variadic optional ps = [] ↔
      (∀ p ∈ ps, variadic = none ∧ (optional ≠ none → p.required = false)) ∧
        ps.Pairwise Param.Precedes := by
  induction ps generalizing variadic optional
  case nil => simp [orderFindings]
  case cons p ps hi =>
    simp only [orderFindings, List.append_eq_nil_iff, hi, List.pairwise_cons, List.forall_mem_cons]
    cases variadic
    case some v => cases p.multiple <;> simp
    case none =>
      cases optional <;> cases hm : p.multiple <;> cases hr : p.required <;>
        simp [hm, hr, Param.Precedes]
      case some.true.false => exact fun h _ p hp => absurd hp (h p)

theorem not_breaks_iff : ¬ c.Breaks ↔ c.params.Pairwise Param.Apart ∧
    (∀ p ∈ c.params, p.forms.Nodup ∧ ¬ p.Misvalued) ∧ c.positionals.Pairwise Param.Precedes := by
  simp only [List.pairwise_iff_forall_sublist]
  constructor
  · intro h
    have hn : (c.params.flatMap (·.forms)).Nodup := by
      by_contra hn
      exact h (.repeatedForm hn)
    have ⟨hf, hp⟩ := List.nodup_flatMap.mp hn
    refine ⟨fun hs => ⟨?_, fun he => h (.sharedVariable hs he)⟩,
      fun p hp => ⟨hf p hp, fun hv => h (.value hp hv)⟩, fun {p q} hs => ⟨?_, fun hp => ?_⟩⟩
    · exact List.pairwise_iff_forall_sublist.mp hp hs
    · by_contra hm
      exact h (.afterVariadic hs (by simpa using hm))
    · by_contra hq
      exact h (.requiredAfterOptional hs hp (by simpa using hq))
  · rintro ⟨ha, hv, hp⟩ h
    cases h
    case repeatedForm hn =>
      refine hn (List.nodup_flatMap.mpr ⟨fun p hp => (hv p hp).1, ?_⟩)
      exact List.pairwise_iff_forall_sublist.mpr fun hs => (ha hs).forms
    case sharedVariable hs hn           => exact (ha hs).names hn
    case value hp h                     => exact (hv _ hp).2 h
    case afterVariadic hs hm            => simp [(hp hs).1] at hm
    case requiredAfterOptional hs hf hq => simp [(hp hs).2 hf] at hq

theorem commandFindings_warn_iff {fs : List Finding} (j : t.Joined) (u : t.Unambiguous)
    (hc : c ∈ t.nodes) (h : t.commandFindings c = .ok fs) :
    (∀ f ∈ fs, f.violation.severity = .warning) ↔ ¬ c.Breaks := by
  have ⟨owner, minor, hf, hm⟩ := j.commandFindings_eq_ok u hc
  cases h.symm.trans hf
  have hminor : ∀ f ∈ minor, f.violation.severity = .warning :=
    fun f h => Violation.severity_of_isMinor (hm f h)
  simp only [List.forall_mem_append, paramFindings_warn_iff, not_breaks_iff]
  rw [Severity.forall_warning_iff fun _ h => (of_mem_orderFindings h).2, orderFindings_eq_nil_iff]
  simp [iff_true_intro hminor, and_assoc]

theorem Grown.sound (g : t.Grown) : t.Sound := by
  induction g
  case empty => exact empty_sound
  case param hi => exact hi.modify fun c _ => ⟨rfl, rfl, rfl, rfl, rfl⟩
  case child t d c t' i p g hp hc ha hf h hi =>
    have hd := hi.index hp
    cases h.symm.trans (addChild_eq_ok hp hd)
    refine Fresh.sound (p := p) ?_ hi
    constructor
    case place    => exact (List.getElem?_eq_some_iff.mp hp).1
    case index    => rfl
    case parent   => rfl
    case children => exact hc
    case aliases  => exact ha
    case free     => exact fun he hep hw => hf _ ⟨he, by rw [hep, hd]⟩ _ hw

-- Rejection is exact.
theorem validate_rejects_iff : (t.Grown → t.Joined ∧ t.Unambiguous) ∧
    (t.Joined → t.Unambiguous → ∃ ds, t.validate = .ok ds ∧
      (Diagnostic.anyError ds ↔ ∃ c ∈ t.nodes, c.Breaks)) := by
  refine ⟨fun g => ⟨g.sound.joined, g.sound.unambiguous⟩, fun j u => ?_⟩
  have ⟨fs, hfs, hm⟩ := j.findings_eq_ok u
  refine ⟨_, by rw [validate, hfs]; rfl, ?_⟩
  rw [← not_iff_not, Bool.not_eq_true, Finding.anyError_eq_false_iff]
  simp only [not_exists, not_and]
  constructor
  · intro h c hc
    have ⟨_, _, hgs, _⟩ := j.commandFindings_eq_ok u hc
    apply (commandFindings_warn_iff j u hc hgs).mp
    exact fun f hf => h f ((hm f).mpr ⟨c, hc, _, hgs, hf⟩)
  · intro h f hf
    have ⟨c, hc, gs, hgs, hf⟩ := (hm f).mp hf
    exact (commandFindings_warn_iff j u hc hgs).mpr (h c hc) f hf

theorem validate_rejects_defaulted_flag :
    let force : Param :=
      { name := "force", kind := .flag, long := some "--force", default := some "" }
    let start : Command := { index := 1, name := "start", aliases := ["s"], parent := some 0 }
    let t := (empty.grown 0 start).modify 1 (·.addParam force)
    t.Grown ∧ t.Joined ∧ t.Unambiguous ∧ ∃ ds, t.validate = .ok ds ∧ Diagnostic.anyError ds := by
  intro force start t
  have g : t.Grown := by
    refine .param (.child (p := 0) (d := { index := 0 }) .empty rfl rfl (by decide) ?_ rfl) 1 force
    intro e hb
    have he : e = { index := 0 } := by simpa [empty] using hb.mem
    cases he ▸ hb.parent
  obtain ⟨hgrown, hiff⟩ := validate_rejects_iff (t := t)
  obtain ⟨j, u⟩ := hgrown g
  obtain ⟨ds, hds, herr⟩ := hiff j u
  refine ⟨g, j, u, ds, hds, herr.mpr ⟨start.addParam force, ?_, ?_⟩⟩
  · exact List.mem_of_getElem? (show t.nodes[1]? = some _ from rfl)
  · exact .value (p := force) List.mem_cons_self (.flagDefault rfl rfl)

end Tree

end ShellArgs
