import ShellArgs.Proofs.Descriptor.Flat
import ShellArgs.Proofs.Forms

-- What all that is done with a parameter relies on. Each parameter that can be read has a name and
-- forms that can be told apart from other words, and its values do not contradict each other.

namespace ShellArgs

open Descriptor

namespace Param

-- The name and the forms. The name is what follows the dashes of the long form, or else the character
-- of the short form.
structure Spelled (p : Param) : Prop where
  nonempty   : p.name ≠ ""
  unblank    : ∀ c ∈ p.name.toList, Text.isBlank c = false
  short      : ∀ f, p.short = some f → ∃ c, f = String.ofList ['-', c] ∧ c.toNat < 0x80 ∧
    Text.isBlank c = false ∧ c ≠ '-' ∧ c ∉ Shell.specialChars
  long       : ∀ f, p.long = some f →
    f = "--" ++ p.name ∨ f = "-" ++ p.name ∧ p.name.toList.head? ≠ some '-'
  shortAlone : p.kind ≠ .positional → p.long = none →
    p.short = some ("-" ++ p.name) ∧ p.name.toList.length = 1
  positional : p.kind = .positional → p.short = none ∧ p.long = none

-- The values that go together.
structure Settled (p : Param) : Prop where
  oneDefault : p.default = none ∨ p.defaultFn = none
  oneChoice  : p.choices = [] ∨ p.choicesFn = none
  validated  : p.validateChoices = false → p.choicesFn ≠ none
  flag       : p.kind = .flag → p.required = false ∧ p.default = none ∧ p.defaultFn = none ∧
    p.choices = [] ∧ p.choicesFn = none ∧ p.valueNames = []
  positional : p.kind = .positional → p.valueNames.length ≤ 1

structure Usable (p : Param) : Prop where
  spelled : p.Spelled
  settled : p.Settled
  form    : p.kind ≠ .positional → p.forms ≠ []
  noForm  : p.kind = .positional → p.forms = []
  dashes  : "--" ∉ p.forms
  equals  : ∀ f ∈ p.forms, '=' ∈ f.toList → f = "-=" ∧ p.short = some f
  oneLine : p.Over (· ≠ '\n')

variable {P : Char → Prop} {k : ParamKind} {p q : Param} {b : Bool}

section Spelled

theorem IsName.ne_empty {n : String} (h : IsName P n) : n ≠ "" := by
  rintro rfl
  exact h.nonempty rfl

theorem IsName.unblank {n : String} (h : IsName P n) : ∀ c ∈ n.toList, Text.isBlank c = false := by
  intro c hc
  by_contra hb
  have := isNameChar_of_isBlank (c := c) (by simpa using hb)
  simp [(h.chars c hc).2] at this

theorem of_isShortChar {c : Char} (h : isShortChar c) : c.toNat < 0x80 ∧ Text.isBlank c = false ∧
    c ≠ '-' ∧ c ∉ Shell.specialChars := by
  simpa [isShortChar, and_assoc] using h

theorem IsShort.eq {f : String} (h : IsShort P f) : ∃ c, f = String.ofList ['-', c] ∧
    c.toNat < 0x80 ∧ Text.isBlank c = false ∧ c ≠ '-' ∧ c ∉ Shell.specialChars :=
  have ⟨c, hf, hc, _⟩ := h
  ⟨c, hf, of_isShortChar hc⟩

theorem Headed.spelled : Headed P k p → p.Spelled
  | .short (c := c) hk hc _   => {
    nonempty   := by simp
    unblank    := by simpa using (of_isShortChar hc).2.1
    short      := fun f hf => ⟨c, (Option.some.inj hf).symm, of_isShortChar hc⟩
    long       := by simp
    shortAlone := by simp
    positional := fun h => absurd h hk
  }
  | .long hk hs hn            => {
    nonempty   := hn.ne_empty
    unblank    := hn.unblank
    short      := fun f hf => (hs f hf).eq
    long       := fun f hf => .inl (Option.some.inj hf).symm
    shortAlone := by simp
    positional := fun h => absurd h hk
  }
  | .singleDash hk hs hn hd   => {
    nonempty   := hn.ne_empty
    unblank    := hn.unblank
    short      := fun f hf => (hs f hf).eq
    long       := fun f hf => .inr ⟨(Option.some.inj hf).symm, hd⟩
    shortAlone := by simp
    positional := fun h => absurd h hk
  }
  | .positional hn            => {
    nonempty   := hn.ne_empty
    unblank    := hn.unblank
    short      := by simp
    long       := by simp
    shortAlone := by simp
    positional := by simp
  }

theorem Valued.name_eq (h : Valued P p q) : q.name = p.name := by
  rw [h.eq]

theorem Completed.name_eq : Completed P p q → q.name = p.name
  | .flag ..        => rfl
  | .values _ hv .. => hv.name_eq

theorem Spelled.of_completed (s : p.Spelled) (h : Completed P p q) : q.Spelled := by
  have ⟨hk, hs, hl⟩ := h.sameForms
  have hn := h.name_eq
  obtain ⟨nonempty, unblank, short, long, shortAlone, positional⟩ := s
  rw [← hn] at nonempty unblank long shortAlone
  rw [← hk] at shortAlone positional
  rw [← hs] at short shortAlone positional
  rw [← hl] at long shortAlone positional
  exact ⟨nonempty, unblank, short, long, shortAlone, positional⟩

end Spelled

section Settled

theorem Defaulted.oneDefault (h : Defaulted P p q) (hd : p.default = none) (hf : p.defaultFn = none) :
    q.default = none ∨ q.defaultFn = none := by
  cases h
  case text     => exact .inr hf
  case function => exact .inl hd

theorem Defaulted.choices_eq (h : Defaulted P p q) :
    q.choices = p.choices ∧ q.choicesFn = p.choicesFn ∧ q.validateChoices = p.validateChoices := by
  cases h <;> exact ⟨rfl, rfl, rfl⟩

theorem Chosen.default_eq (h : Chosen P p q false) :
    q.default = p.default ∧ q.defaultFn = p.defaultFn := by
  cases h <;> exact ⟨rfl, rfl⟩

theorem Chosen.defaultFn_eq (h : Chosen P p q b) : q.defaultFn = p.defaultFn := by
  cases h <;> rfl

-- Only a function can leave it open which choices there are.
structure ChoicesAgree (p : Param) : Prop where
  oneChoice : p.choices = [] ∨ p.choicesFn = none
  validated : p.validateChoices = false → p.choicesFn ≠ none

-- Before values are read there are none.
structure Bare (p : Param) : Prop where
  default         : p.default = none
  defaultFn       : p.defaultFn = none
  choices         : p.choices = []
  choicesFn       : p.choicesFn = none
  validateChoices : p.validateChoices = true

theorem Bare.choicesAgree (h : p.Bare) : p.ChoicesAgree :=
  ⟨.inl h.choices, by simp [h.validateChoices]⟩

theorem Bare.marked (h : p.Bare) (required multiple : Bool) : Bare { p with required, multiple } :=
  ⟨h.default, h.defaultFn, h.choices, h.choicesFn, h.validateChoices⟩

theorem Chosen.choicesAgree (h : Chosen P p q b) (hc : p.choices = []) (hf : p.choicesFn = none)
    (hv : p.validateChoices = true) : q.ChoicesAgree := by
  cases h
  case texts    => exact ⟨.inr hf, by simp [hv]⟩
  case default  => exact ⟨.inr hf, by simp [hv]⟩
  case function => exact ⟨.inl hc, by simp⟩

theorem Valued.oneDefault (bare : p.Bare) :
    Valued P p q → q.default = none ∨ q.defaultFn = none
  | .plain             => .inl bare.default
  | .default h         => h.oneDefault bare.default bare.defaultFn
  | .choices h         => .inr (h.defaultFn_eq.trans bare.defaultFn)
  | .defaultFirst h h' => by
    have hd := h.oneDefault bare.default bare.defaultFn
    rwa [← h'.default_eq.1, ← h'.default_eq.2] at hd
  | .choicesFirst h h' =>
    h'.oneDefault (h.default_eq.1.trans bare.default) (h.default_eq.2.trans bare.defaultFn)

theorem Valued.choicesAgree (bare : p.Bare) : Valued P p q → q.ChoicesAgree
  | .plain             => bare.choicesAgree
  | .default h         => by
    have ⟨hc, hf, hv⟩ := h.choices_eq
    exact ⟨.inl (hc.trans bare.choices), by simp [hv, bare.validateChoices]⟩
  | .choices h         => h.choicesAgree bare.choices bare.choicesFn bare.validateChoices
  | .defaultFirst h h' => by
    have ⟨hc, hf, hv⟩ := h.choices_eq
    exact h'.choicesAgree (hc.trans bare.choices) (hf.trans bare.choicesFn)
      (hv.trans bare.validateChoices)
  | .choicesFirst h h' => by
    have ⟨hc, hf, hv⟩ := h'.choices_eq
    have ⟨oneChoice, validated⟩ := h.choicesAgree bare.choices bare.choicesFn bare.validateChoices
    rw [← hc, ← hf] at oneChoice
    rw [← hv, ← hf] at validated
    exact ⟨oneChoice, validated⟩

theorem Headed.bare : Headed P k p → p.Bare
  | .short ..      => ⟨rfl, rfl, rfl, rfl, rfl⟩
  | .long ..       => ⟨rfl, rfl, rfl, rfl, rfl⟩
  | .singleDash .. => ⟨rfl, rfl, rfl, rfl, rfl⟩
  | .positional .. => ⟨rfl, rfl, rfl, rfl, rfl⟩

theorem Headed.not_required (hk : k ≠ .positional) :
    Headed P k p → p.required = false ∧ p.valueNames = []
  | .short ..      => ⟨rfl, rfl⟩
  | .long ..       => ⟨rfl, rfl⟩
  | .singleDash .. => ⟨rfl, rfl⟩
  | .positional _  => absurd rfl hk

theorem Declares.settled (h : Declares P k p) : p.Settled := by
  obtain ⟨q, hq, hc⟩ := h
  have bare := hq.bare
  cases hc
  case flag hf _ =>
    have ⟨hr, hn⟩ := hq.not_required (by rw [← hq.kind_eq, hf]; decide)
    exact {
      oneDefault := .inl bare.default
      oneChoice  := .inl bare.choices
      validated  := by simp [bare.validateChoices]
      flag       := fun _ => ⟨hr, bare.default, bare.defaultFn, bare.choices, bare.choicesFn, hn⟩
      positional := by simp [hf]
    }
  case values hk hv _ hmost _ =>
    have hkind := hv.sameForms.kind
    have oneDefault := hv.oneDefault (bare.marked _ _)
    have ⟨oneChoice, validated⟩ := hv.choicesAgree (bare.marked _ _)
    exact {
      oneDefault := oneDefault
      oneChoice  := oneChoice
      validated  := validated
      flag       := fun hf => absurd (hkind.symm.trans hf) hk
      positional := fun hp => hmost (hkind.symm.trans hp)
    }

end Settled

-- Functions and variables of the environment, which are written into code as they are.
section Named

theorem Defaulted.isFunction (h : Defaulted P p q) (hf : p.defaultFn = none) :
    ∀ f, q.defaultFn = some f → IsFunction P f := by
  cases h
  case text        => simp [hf]
  case function hf => exact fun _ h => Option.some.inj h ▸ hf

theorem Valued.isFunction (bare : p.Bare) :
    Valued P p q → ∀ f, q.defaultFn = some f → IsFunction P f
  | .plain             => by simp [bare.defaultFn]
  | .default h         => h.isFunction bare.defaultFn
  | .choices h         => by simp [h.defaultFn_eq, bare.defaultFn]
  | .defaultFirst h h' => h'.default_eq.2 ▸ h.isFunction bare.defaultFn
  | .choicesFirst h h' => h'.isFunction (h.default_eq.2.trans bare.defaultFn)

theorem Declares.isFunction (h : Declares P k p) : ∀ f, p.defaultFn = some f → IsFunction P f := by
  obtain ⟨q, hq, hc⟩ := h
  cases hc
  case flag            => simp [hq.bare.defaultFn]
  case values hv _ _ _ =>
    have hf := hv.isFunction (hq.bare.marked _ _)
    exact hf

theorem Declares.isVariable (h : Declares P k p) : ∀ v, p.envVar = some v → IsVariable P v := by
  obtain ⟨q, _, hc⟩ := h
  cases hc
  case flag he   => exact he
  case values he => exact he

end Named

theorem Spelled.form (s : p.Spelled) (hk : p.kind ≠ .positional) : p.forms ≠ [] := by
  cases hl : p.long with
  | none   => simp [forms, nonempty?, hl, (s.shortAlone hk hl).1]
  | some f =>
    have hf : f ≠ "" := by
      rcases s.long f hl with rfl | ⟨rfl, _⟩ <;> simp
    simp [forms, nonempty?, hl, hf]

theorem Spelled.noForm (s : p.Spelled) (hk : p.kind = .positional) : p.forms = [] := by
  simp [forms, nonempty?, s.positional hk]

theorem Declares.spelled (h : Declares P k p) : p.Spelled :=
  have ⟨_, hq, hc⟩ := h
  hq.spelled.of_completed hc

-- Names have no equals sign.
theorem Declared.equals (d : p.Declared k) {f : String} (hf : f ∈ p.forms) (he : '=' ∈ f.toList) :
    f = "-=" ∧ p.short = some f := by
  cases mem_forms hf
  case inr hs => exact ⟨(d.isForm hf).eq_or_not_mem.resolve_right (not_not.mpr he), hs⟩
  case inl hl =>
    obtain ⟨cs, _, hcs, hlong⟩ := d.long hl
    have hn := not_mem_of_isNameChar hcs
    rcases hlong with hlong | ⟨hlong, _⟩ <;> simp [hlong, hn] at he

end Param

-- All parameters that can be read are usable.
theorem Descriptor.usable_of_read {kind : ParamKind} {text : String} {line : Int} {p : Param}
    (h : read kind text line = .ok p) : p.kind = kind ∧ p.Usable := by
  have hline : ∀ c ∈ text.toList.takeWhile (· != '\n'), c ≠ '\n' := fun c hc => by
    simpa using List.mem_takeWhile_imp hc
  have d := declared_of_read h
  have s := (declares_of_read h hline).spelled
  refine ⟨d.kind, ?_⟩
  exact {
    spelled := s
    settled := (declares_of_read h hline).settled
    form    := s.form
    noForm  := s.noForm
    dashes  := fun hf => (d.isForm hf).ne_dashes rfl
    equals  := fun f hf he => d.equals hf he
    oneLine := over_of_read h (by decide) hline
  }

theorem Descriptor.names_of_read {kind : ParamKind} {text : String} {line : Int} {p : Param}
    (h : read kind text line = .ok p) :
    (∀ f, p.defaultFn = some f → ∀ c ∈ f.toList, Shell.isFunctionChar c) ∧
      ∀ v, p.envVar = some v → ∀ c ∈ v.toList, Shell.isNameChar c := by
  have hd : Param.Declares (fun _ => True) kind p := declares_of_read h fun _ _ => trivial
  exact ⟨fun f hf c hc => (hd.isFunction f hf c hc).2, fun v hv c hc => (hd.isVariable v hv c hc).2⟩

def deployEnv : Param where
  name       := "env"
  kind       := .option
  short      := some "-e"
  long       := some "--env"
  required   := true
  choices    := ["dev", "prod"]
  valueNames := ["NAME"]
  envVar     := some "DEPLOY_ENV"
  help       := "Target"
  line       := 3

theorem Descriptor.usable_of_read_deployEnv :
    read .option "-e --env![dev|prod] <NAME> $DEPLOY_ENV  Target" 3 = .ok deployEnv ∧
      deployEnv.kind = .option ∧ deployEnv.Usable := by
  have h : read .option "-e --env![dev|prod] <NAME> $DEPLOY_ENV  Target" 3 = .ok deployEnv := by
    decide +kernel
  exact ⟨h, Descriptor.usable_of_read h⟩

end ShellArgs
