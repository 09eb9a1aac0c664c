import ShellArgs.Descriptor.Read
import ShellArgs.Proofs.Descriptor.Characters
import ShellArgs.Proofs.Descriptor.Runs

-- What descriptors declare, part by part. This is all that there is to know of the results of the
-- grammar; which texts they come from does not matter here.

namespace ShellArgs

open Descriptor

-- A text of certain characters.
def Text.Over (P : Char → Prop) (s : String) : Prop :=
  ∀ c ∈ s.toList, P c

theorem Text.over_ofList {P : Char → Prop} {cs : List Char} :
    Over P (String.ofList cs) ↔ ∀ c ∈ cs, P c := by
  rw [Over, String.toList_ofList]

namespace Param

open Text

variable (P : Char → Prop)

structure IsName (n : String) : Prop where
  nonempty : n.toList ≠ []
  chars    : ∀ c ∈ n.toList, P c ∧ isNameChar c

def IsShort (f : String) : Prop :=
  ∃ c, f = String.ofList ['-', c] ∧ isShortChar c ∧ P c

def IsFunction (f : String) : Prop :=
  ∀ c ∈ f.toList, P c ∧ Shell.isFunctionChar c

def IsVariable (v : String) : Prop :=
  ∀ c ∈ v.toList, P c ∧ Shell.isNameChar c

-- Declared by a name and by forms that go with it.
inductive Headed : ParamKind → Param → Prop
  | short {k : ParamKind} {c : Char} (hk : k ≠ .positional) (hc : isShortChar c) (hp : P c) :
      Headed k { name := String.singleton c, kind := k, short := some (String.ofList ['-', c]) }
  | long {k : ParamKind} {n : String} {short : Option String} (hk : k ≠ .positional)
      (hs : ∀ f ∈ short, IsShort P f) (hn : IsName P n) :
      Headed k { name := n, kind := k, short, long := some ("--" ++ n) }
  | singleDash {k : ParamKind} {n : String} {short : Option String} (hk : k ≠ .positional)
      (hs : ∀ f ∈ short, IsShort P f) (hn : IsName P n) (hd : n.toList.head? ≠ some '-') :
      Headed k { name := n, kind := k, short, long := some ("-" ++ n) }
  | positional {n : String} {required : Bool} (hn : IsName P n) :
      Headed .positional { name := n, kind := .positional, required }

-- With a default.
inductive Defaulted (p : Param) : Param → Prop
  | text {v : String} (hv : Over P v) : Defaulted p { p with default := some v }
  | function {f : String} (hf : IsFunction P f) : Defaulted p { p with defaultFn := some f }

-- With choices. The flag says whether the first one is the default as well.
inductive Chosen (p : Param) : Param → Bool → Prop
  | texts {cs : List String} (hc : ∀ c ∈ cs, Over P c) : Chosen p { p with choices := cs } false
  | default {c : String} {cs : List String} (hc : ∀ d ∈ c :: cs, Over P d) :
      Chosen p { p with choices := c :: cs, default := some c, required := false } true
  | function {f : String} {validated : Bool} (hf : IsFunction P f) :
      Chosen p { p with choicesFn := some f, validateChoices := validated } false

-- With a default and choices, in either order. There is no second default.
inductive Valued (p : Param) : Param → Prop
  | plain : Valued p p
  | default {q : Param} (h : Defaulted P p q) : Valued p q
  | choices {q : Param} {b : Bool} (h : Chosen P p q b) : Valued p q
  | defaultFirst {q r : Param} (h : Defaulted P p q) (h' : Chosen P q r false) : Valued p r
  | choicesFirst {q r : Param} (h : Chosen P p q false) (h' : Defaulted P q r) : Valued p r

-- With all that can follow the forms or the name.
inductive Completed (p : Param) : Param → Prop
  | flag {multiple : Bool} {env : Option String} {help : String} {line : Int} (hk : p.kind = .flag)
      (he : ∀ v ∈ env, IsVariable P v) : Completed p { p with multiple, envVar := env, help, line }
  | values {q : Param} {required multiple : Bool} {ns : List String} {env : Option String}
      {help : String} {line : Int} (hk : p.kind ≠ .flag)
      (hv : Valued P { p with required, multiple } q) (hn : ∀ n ∈ ns, Over P n)
      (hmost : p.kind = .positional → ns.length ≤ 1) (he : ∀ v ∈ env, IsVariable P v) :
      Completed p { q with valueNames := ns, envVar := env, help, line }

def Declares (k : ParamKind) (q : Param) : Prop :=
  ∃ p, Headed P k p ∧ Completed P p q

variable {P} {k : ParamKind} {p q : Param}

-- A default and choices leave all else as it is.
theorem Valued.eq (h : Valued P p q) : q =
    { p with
      required := q.required, default := q.default, defaultFn := q.defaultFn, choices := q.choices,
      choicesFn := q.choicesFn, validateChoices := q.validateChoices } := by
  cases h
  case plain          => rfl
  case default h      => cases h <;> rfl
  case choices h      => cases h <;> rfl
  case defaultFirst r h h' => cases h <;> cases h' <;> rfl
  case choicesFirst r h h' => cases h <;> cases h' <;> rfl

-- The help text and the line can be any.
theorem Completed.located (help : String) (line : Int) :
    Completed P p q → Completed P p { q with help, line }
  | .flag hk he                        => .flag hk he
  | .values (q := r) hk hv hn hmost he => .values (q := r) hk hv hn hmost he

theorem Headed.kind_eq (h : Headed P k p) : p.kind = k := by
  cases h <;> rfl

theorem Headed.envVar_eq (h : Headed P k p) : p.envVar = none := by
  cases h <;> rfl

end Param

namespace Descriptor

variable {s t u : List Char} {quote : Char} {depth : Nat}

theorem closeQuote?_taken (h : closeQuote? quote s = some (t, u)) : t ⊆ s ∧ u <:+ s := by
  fun_induction closeQuote? quote s generalizing t u with
  | case1 => cases h
  | case2 c s hc hi =>
    obtain ⟨⟨t', u'⟩, ht, he⟩ := Option.map_eq_some_iff.mp h
    cases he
    have ⟨hs, hu⟩ := hi ht
    exact ⟨List.subset_cons_of_subset _ (List.cons_subset_cons c hs), hu.trans ⟨['\\', c], rfl⟩⟩
  | case3 c s hc hi =>
    obtain ⟨⟨t', u'⟩, ht, he⟩ := Option.map_eq_some_iff.mp h
    cases he
    have ⟨hs, hu⟩ := hi ht
    exact ⟨List.cons_subset_cons _ hs, hu.trans (List.suffix_cons _ _)⟩
  | case4 s =>
    cases h
    exact ⟨List.nil_subset _, List.suffix_cons _ _⟩
  | case5 c s hn hc hi =>
    obtain ⟨⟨t', u'⟩, ht, he⟩ := Option.map_eq_some_iff.mp h
    cases he
    have ⟨hs, hu⟩ := hi ht
    exact ⟨List.cons_subset_cons _ hs, hu.trans (List.suffix_cons _ _)⟩

theorem closeAngle?_taken (h : closeAngle? depth s = some (t, u)) : t ⊆ s ∧ u <:+ s := by
  induction s generalizing depth t u with
  | nil => cases h
  | cons c s hi =>
    have hrest {d : Nat} (h : (closeAngle? d s).map (fun p => (c :: p.1, p.2)) = some (t, u)) :
        t ⊆ c :: s ∧ u <:+ c :: s := by
      obtain ⟨⟨t', u'⟩, ht, he⟩ := Option.map_eq_some_iff.mp h
      cases he
      have ⟨hs, hu⟩ := hi ht
      exact ⟨List.cons_subset_cons c hs, hu.trans (List.suffix_cons c s)⟩
    unfold closeAngle? at h
    split at h
    case isTrue => exact hrest h
    case isFalse =>
      split at h
      case isFalse => exact hrest h
      case isTrue =>
        split at h
        case h_1 => cases h; exact ⟨List.nil_subset _, List.suffix_cons c s⟩
        case h_2 => exact hrest h

namespace Rule

open Param Text

variable {P : Char → Prop} {p q : Param} {k : ParamKind}

theorem spaces_makes : spaces.Makes P fun _ => True :=
  makes_bind makes_takeWhile fun _ _ => makes_pure trivial

theorem quoted_makes : (quoted quote).Makes P (Over P) := by
  refine makes_bind makes_drop fun _ _ => ?_
  refine makes_bind (makes_ofText fun _ _ _ h => closeQuote?_taken h) fun cs hcs => ?_
  exact makes_pure (over_ofList.mpr hcs)

theorem functionName_makes : functionName.Makes P (IsFunction P) := by
  refine makes_bind makes_expect fun _ _ => makes_bind makes_takeWhile fun cs hcs => ?_
  cases cs
  case nil  => exact makes_fail
  case cons =>
    refine makes_bind makes_expect fun _ _ => makes_pure ?_
    simpa [IsFunction] using hcs

theorem defaultValue_makes : (defaultValue p).Makes P (Defaulted P p) := by
  refine makes_bind makes_expect fun _ _ => makes_bind makes_peek fun o _ => ?_
  split
  case h_1 => exact makes_bind functionName_makes fun f hf => makes_pure (.function hf)
  case h_2 => exact makes_bind quoted_makes fun v hv => makes_pure (.text hv)
  case h_3 => exact makes_bind quoted_makes fun v hv => makes_pure (.text hv)
  case h_4 =>
    refine makes_bind makes_takeWhile fun cs hcs => makes_pure (.text ?_)
    exact over_ofList.mpr fun c hc => (hcs c hc).1

theorem choice_makes : choice.Makes P (Over P) := by
  refine makes_bind makes_peek fun o _ => ?_
  split
  case h_1 => exact makes_fail
  case h_2 => exact makes_fail
  case h_3 => exact quoted_makes
  case h_4 => exact quoted_makes
  case h_5 =>
    refine makes_bind makes_takeWhile fun cs hcs => makes_pure ?_
    exact over_ofList.mpr fun c hc => (hcs c hc).1

theorem moreChoices_makes (n : Nat) : (moreChoices n).Makes P fun cs => ∀ c ∈ cs, Over P c := by
  induction n with
  | zero => exact makes_pure (by simp)
  | succ n hi =>
    refine makes_bind makes_eat fun b _ => ?_
    cases b
    case false => exact makes_pure (by simp)
    case true =>
      refine makes_bind choice_makes fun c hc => makes_bind hi fun cs hcs => makes_pure ?_
      exact List.forall_mem_cons.mpr ⟨hc, hcs⟩

theorem choices_makes : (choices p).Makes P fun a => Chosen P p a.1 a.2 := by
  refine makes_bind makes_expect fun _ _ => makes_bind makes_rest fun s _ => ?_
  split
  case isTrue =>
    refine makes_bind makes_eat fun _ _ => makes_bind functionName_makes fun f hf => ?_
    exact makes_bind makes_expect fun _ _ => makes_pure (.function hf)
  case isFalse =>
    refine makes_bind makes_eat fun hasDefault _ => makes_bind choice_makes fun c hc => ?_
    refine makes_bind makes_rest fun s _ => makes_bind (moreChoices_makes _) fun cs hcs => ?_
    refine makes_bind makes_expect fun _ _ => ?_
    have hall : ∀ d ∈ c :: cs, Over P d := List.forall_mem_cons.mpr ⟨hc, hcs⟩
    split
    case isTrue  => exact makes_pure (.default hall)
    case isFalse => exact makes_pure (.texts hall)

theorem marker_makes :
    (marker p).Makes P fun q => ∃ required multiple, q = { p with required, multiple } := by
  refine makes_bind makes_peek fun o _ => ?_
  split
  case h_1 => exact makes_bind makes_drop fun _ _ => makes_pure ⟨_, _, rfl⟩
  case h_2 => exact makes_bind makes_drop fun _ _ => makes_pure ⟨_, _, rfl⟩
  case h_3 => exact makes_bind makes_drop fun _ _ => makes_pure ⟨_, _, rfl⟩
  case h_4 => exact makes_pure ⟨p.required, p.multiple, rfl⟩

theorem values_makes : (values p).Makes P (Valued P p) := by
  refine makes_bind makes_peek fun o _ => ?_
  split
  case h_1 =>
    refine makes_bind defaultValue_makes fun q hq => makes_bind makes_peek fun _ _ => ?_
    split
    case isFalse => exact makes_pure (.default hq)
    case isTrue =>
      refine makes_bind choices_makes fun a ha => ?_
      obtain ⟨r, hasDefault⟩ := a
      cases hasDefault
      case true  => exact makes_fail
      case false => exact makes_pure (.defaultFirst hq ha)
  case h_2 =>
    refine makes_bind choices_makes fun a ha => ?_
    obtain ⟨q, hasDefault⟩ := a
    refine makes_bind makes_peek fun _ _ => ?_
    split
    case isFalse  => exact makes_pure (.choices ha)
    case isTrue h =>
      cases hasDefault
      case true  => cases h
      case false => exact defaultValue_makes.mono fun _ hq => .choicesFirst ha hq
  case h_3 => exact makes_pure .plain

theorem valueNames_makes (n : Nat) :
    (valueNames n).Makes P fun ns => (∀ n ∈ ns, Over P n) ∧ ns.length ≤ n := by
  induction n with
  | zero => exact makes_pure (by simp)
  | succ n hi =>
    refine makes_bind makes_rest fun s _ => ?_
    split
    case isFalse => exact makes_pure (by simp)
    case isTrue =>
      refine makes_bind spaces_makes fun _ _ => makes_bind makes_drop fun _ _ => ?_
      refine makes_bind (makes_ofText fun _ _ _ h => closeAngle?_taken h) fun cs hcs => ?_
      refine makes_bind hi fun ns hns => makes_pure ⟨?_, by simpa using hns.2⟩
      exact List.forall_mem_cons.mpr ⟨over_ofList.mpr hcs, hns.1⟩

theorem environment_makes (h : ∀ v ∈ p.envVar, IsVariable P v) :
    (environment p).Makes P fun q =>
      ∃ env, (∀ v ∈ env, IsVariable P v) ∧ q = { p with envVar := env } := by
  have hsame : (pure p : Rule Param).Makes P fun q =>
      ∃ env, (∀ v ∈ env, IsVariable P v) ∧ q = { p with envVar := env } := makes_pure ⟨_, h, rfl⟩
  refine makes_bind makes_rest fun _ _ => ?_
  split
  case isFalse => exact hsame
  case isTrue =>
    refine makes_bind spaces_makes fun _ _ => makes_bind makes_drop fun _ _ => ?_
    refine makes_bind makes_peek fun _ _ => ?_
    split
    case isFalse => exact makes_fail
    case isTrue =>
      refine makes_bind makes_takeWhile fun cs hcs => makes_bind makes_peek fun _ _ => ?_
      split
      case isFalse => exact makes_fail
      case isTrue =>
        refine makes_pure ⟨some (String.ofList cs), ?_, rfl⟩
        simpa [IsVariable] using hcs

theorem tail_makes : tail.Makes P fun _ => True := by
  refine makes_bind makes_rest fun s _ => ?_
  split
  case h_1 => exact makes_pure trivial
  case h_2 =>
    split
    case isTrue  => exact makes_bind makes_drop fun _ _ => makes_pure trivial
    case isFalse => exact makes_fail

-- The variable and the help text come last.
theorem end_makes (h : p.envVar = none) : (do
    let p ← environment p
    return { p with help := ← tail }).Makes P fun q =>
      ∃ env help, (∀ v ∈ env, IsVariable P v) ∧ q = { p with envVar := env, help } := by
  refine makes_bind (environment_makes (by simp [h])) fun q hq => makes_bind tail_makes fun help _ => ?_
  have ⟨env, henv, hq⟩ := hq
  exact makes_pure ⟨env, help, henv, by rw [hq]⟩

-- What can follow the forms or the name of anything but a flag.
theorem values_end_makes {x : Rule (List String)} (hk : p.kind ≠ .flag) (h : p.envVar = none)
    (hx : x.Makes P fun ns => (∀ n ∈ ns, Over P n) ∧ (p.kind = .positional → ns.length ≤ 1)) : (do
    let p ← values (← marker p)
    let p := { p with valueNames := ← x }
    let p ← environment p
    return { p with help := ← tail }).Makes P (Completed P p) := by
  refine makes_bind marker_makes fun q hq => ?_
  obtain ⟨required, multiple, rfl⟩ := hq
  refine makes_bind values_makes fun q hq => makes_bind hx fun ns hns => ?_
  have henv : q.envVar = none := (congrArg Param.envVar hq.eq).trans h
  refine (end_makes (p := { q with valueNames := ns }) henv).mono fun r hr => ?_
  obtain ⟨env, help, henv, rfl⟩ := hr
  exact .values (q := q) hk hq hns.1 hns.2 henv

theorem afterForms_makes (h : p.envVar = none) (hk : p.kind ≠ .positional) :
    (afterForms p).Makes P (Completed P p) := by
  unfold afterForms
  split
  case isTrue hf =>
    refine makes_bind makes_eat fun multiple _ => ?_
    refine (end_makes (p := { p with multiple }) h).mono fun q hq => ?_
    obtain ⟨env, help, henv, rfl⟩ := hq
    exact .flag (by simpa [isFlag] using hf) henv
  case isFalse hf =>
    refine values_end_makes (x := do valueNames (← rest).length) (by simpa [isFlag] using hf) h ?_
    refine makes_bind makes_rest fun s _ => (valueNames_makes _).mono fun ns hns => ⟨hns.1, ?_⟩
    exact fun hp => absurd hp hk

section Forms

theorem shortBeforeLong_makes : shortBeforeLong.Makes P (IsShort P) := by
  refine makes_bind makes_expect fun _ _ => makes_bind makes_peek fun o ho => ?_
  split
  case h_2 => exact makes_fail
  case h_1 c =>
    split
    case isFalse => exact makes_fail
    case isTrue h =>
      refine makes_bind makes_drop fun _ _ => makes_bind makes_peek fun _ _ => ?_
      split
      case isFalse => exact makes_fail
      case isTrue  => exact makes_pure ⟨c, rfl, h, ho c rfl⟩

theorem runs_name {s : List Char} (hs : ∀ c ∈ s, P c) :
    name.Runs s fun n _ => IsName P n ∧ n.toList.head? = s.head? := by
  have htake : (takeWhile isNameChar).Runs s fun cs t =>
      (∀ c ∈ cs, P c ∧ isNameChar c) ∧ cs ++ t = s := by
    refine ⟨fun _ => .inl rfl, fun h => ?_⟩
    have ⟨ht, hcs⟩ := (makes_takeWhile s hs).result h
    cases h
    exact ⟨ht, hcs, List.takeWhile_append_dropWhile⟩
  refine runs_bind htake fun cs t hcs => ?_
  cases cs
  case nil => exact runs_fail
  case cons c cs => exact runs_pure ⟨⟨by simp, by simpa using hcs.1⟩, by simp [← hcs.2]⟩

theorem name_makes : name.Makes P (IsName P) :=
  fun _ hs => (runs_name hs).mono fun _ _ h => h.1

-- What comes after the first dash of a long form.
def afterDash (k : ParamKind) (short : Option String) : Rule Param := do
  let double ← eat '-'
  let name ← name
  let form := (if double then "--" else "-") ++ name
  if !double && name.toList.length == 1 && short.isNone then
    afterForms { name, kind := k, short := some form }
  else
    afterForms { name, kind := k, short, long := some form }

theorem headed_makes (h : Headed P k p) (hk : k ≠ .positional) : (afterForms p).Makes P (Declares P k) :=
  (afterForms_makes h.envVar_eq (h.kind_eq ▸ hk)).mono fun _ hq => ⟨p, h, hq⟩

theorem afterDash_makes {short : Option String} (hk : k ≠ .positional)
    (hs : ∀ f ∈ short, IsShort P f) : (afterDash k short).Makes P (Declares P k) := by
  intro s hP
  -- Without a second dash, the name begins with something else.
  have heat : (eat '-').Runs s fun double t => double = false → t.head? ≠ some '-' :=
    runs_eat (by simp) fun h _ => h
  refine heat.bind_makes hP fun double t hd ht => ?_
  refine (runs_name ht).bind_makes ht fun n u hn hu => ?_
  simp only
  split
  case isTrue h =>
    -- A single character after a single dash.
    simp only [Bool.and_eq_true, Bool.not_eq_true', beq_iff_eq] at h
    have ⟨c, hc⟩ := List.length_eq_one_iff.mp h.1.2
    have ⟨hp, hname⟩ := hn.1.chars c (by simp [hc])
    have hdash : c ≠ '-' := by simpa [hc, ← hn.2] using hd h.1.1
    have hn : n = String.singleton c := by simp [← String.toList_inj, hc]
    have hform : "-" ++ n = String.ofList ['-', c] := by simp [← String.toList_inj, hc]
    rw [h.1.1, if_neg Bool.false_ne_true, hform, hn]
    exact headed_makes (.short hk (isShortChar_of_isNameChar hname hdash) hp) hk u hu
  case isFalse =>
    cases double
    case true  => exact headed_makes (.long hk hs hn.1) hk u hu
    case false => exact headed_makes (.singleDash hk hs hn.1 (hn.2 ▸ hd rfl)) hk u hu

theorem withLong_makes (hk : k ≠ .positional) : (withLong k).Makes P (Declares P k) := by
  refine makes_bind (makes_attempt shortBeforeLong_makes) fun short hs => ?_
  refine makes_bind spaces_makes fun _ _ => makes_bind makes_eat fun _ _ => ?_
  split
  case isTrue  => exact afterDash_makes hk hs
  case isFalse =>
    exact makes_bind (makes_fail (F := fun _ => True)) fun _ _ => afterDash_makes hk hs

theorem shortAlone_makes (hk : k ≠ .positional) : (shortAlone k).Makes P (Declares P k) := by
  refine makes_bind spaces_makes fun _ _ => makes_bind makes_expect fun _ _ => ?_
  refine makes_bind makes_rest fun s hs => ?_
  cases hc : s.head?
  case none => exact makes_fail
  case some c =>
    have hdeclare (h : isShortChar c) : (shortAlone.declare k c).Makes P (Declares P k) :=
      makes_bind makes_drop fun _ _ => headed_makes (.short hk h (hs c (List.mem_of_mem_head? hc))) hk
    simp only
    split
    case isTrue =>
      split
      case isTrue h => exact hdeclare h
      case isFalse  => exact makes_fail
    case isFalse =>
      split
      case isFalse  => exact makes_fail
      case isTrue h =>
        rw [Bool.and_eq_true] at h
        exact hdeclare (isShortChar_of_isLoneShortChar h.1)

theorem positional_makes : positional.Makes P (Declares P .positional) := by
  have hname {n : String} {required : Bool} (hn : IsName P n) :
      (pure { name := n, kind := .positional, required } : Rule Param).Makes P
        (Headed P .positional) := makes_pure (.positional hn)
  have hrest (p : Param) (h : Headed P .positional p) : (do
      let p ← values (← marker p)
      let p := { p with valueNames := ← valueNames 1 }
      let p ← environment p
      return { p with help := ← tail }).Makes P (Declares P .positional) := by
    have hvalues := valueNames_makes (P := P) 1
    refine (values_end_makes (by simp [h.kind_eq]) h.envVar_eq ?_).mono fun q hq => ⟨p, h, hq⟩
    exact hvalues.mono fun ns hns => ⟨hns.1, fun _ => hns.2⟩
  refine makes_bind makes_eat fun _ _ => ?_
  split
  case isTrue =>
    refine makes_bind name_makes fun n hn => makes_bind makes_expect fun _ _ => ?_
    exact makes_bind (hname hn) hrest
  case isFalse =>
    refine makes_bind makes_eat fun _ _ => ?_
    split
    case isTrue =>
      refine makes_bind name_makes fun n hn => makes_bind makes_expect fun _ _ => ?_
      exact makes_bind (hname hn) hrest
    case isFalse => exact makes_bind name_makes fun n hn => makes_bind (hname hn) hrest

theorem descriptor_makes (k : ParamKind) : (descriptor k).Makes P (Declares P k) := by
  cases k
  case option     => exact makes_orElse (withLong_makes (by simp)) (shortAlone_makes (by simp))
  case flag       => exact makes_orElse (withLong_makes (by simp)) (shortAlone_makes (by simp))
  case positional => exact positional_makes

end Forms

end Rule

variable {k : ParamKind} {text : String} {line : Int} {p : Param}

-- What is read is what the grammar makes of the first line, with the line and the help text.
theorem exists_of_read (h : read k text line = .ok p) :
    ∃ q help, let first := text.toList.takeWhile (· != '\n')
      (∃ rest, (Rule.descriptor k first ⟨first, .descriptor⟩).1 = some (q, rest)) ∧
        p = { q with help, line } := by
  unfold read at h
  simp only at h
  split at h
  case h_1 hq => exact ⟨_, _, ⟨_, congrArg Prod.fst hq⟩, (Except.ok.inj h).symm⟩
  case h_2 => cases h

-- Whatever holds of the characters in the first line holds of those in the declaration.
theorem declares_of_read {P : Char → Prop} (h : read k text line = .ok p)
    (hP : ∀ c ∈ text.toList.takeWhile (· != '\n'), P c) : Param.Declares P k p := by
  obtain ⟨q, help, ⟨_, hq⟩, rfl⟩ := exists_of_read h
  have ⟨p, hp, hc⟩ := ((Rule.descriptor_makes k _ hP).result hq).2
  exact ⟨p, hp, hc.located _ _⟩

end Descriptor

end ShellArgs
