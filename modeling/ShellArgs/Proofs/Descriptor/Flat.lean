import ShellArgs.Proofs.Descriptor.Declarations
import ShellArgs.Proofs.Text.Lines

-- What a descriptor declares stands on one line, as the descriptor does. Only the help text goes
-- on in further lines.

namespace ShellArgs

open Descriptor Text

-- All texts that a parameter is declared with consist of certain characters, but for the help text.
structure Param.Over (P : Char → Prop) (p : Param) : Prop where
  name       : Text.Over P p.name
  short      : ∀ f, p.short = some f → Text.Over P f
  long       : ∀ f, p.long = some f → Text.Over P f
  default    : ∀ v, p.default = some v → Text.Over P v
  defaultFn  : ∀ f, p.defaultFn = some f → Text.Over P f
  choices    : ∀ c ∈ p.choices, Text.Over P c
  choicesFn  : ∀ f, p.choicesFn = some f → Text.Over P f
  valueNames : ∀ n ∈ p.valueNames, Text.Over P n
  envVar     : ∀ v, p.envVar = some v → Text.Over P v

namespace Param

variable {P : Char → Prop} {k : ParamKind} {p q : Param} {b : Bool}

section Heads

-- A declaration of which only the name and the forms are known yet.
theorem over_of_forms {n : String} {short long : Option String} {required : Bool}
    (hn : Text.Over P n) (hs : ∀ f ∈ short, Text.Over P f) (hl : ∀ f ∈ long, Text.Over P f) :
    Param.Over P { name := n, kind := k, short, long, required } where
  name       := hn
  short      := hs
  long       := hl
  default    := by simp
  defaultFn  := by simp
  choices    := by simp
  choicesFn  := by simp
  valueNames := by simp
  envVar     := by simp

theorem IsName.over {n : String} (h : IsName P n) : Text.Over P n :=
  fun c hc => (h.chars c hc).1

variable (hd : P '-')

include hd

theorem IsShort.over {f : String} (h : IsShort P f) : Text.Over P f := by
  obtain ⟨c, rfl, _, hc⟩ := h
  exact over_ofList.mpr (by simpa using ⟨hd, hc⟩)

theorem over_dashed {n : String} (hn : Text.Over P n) :
    Text.Over P ("--" ++ n) ∧ Text.Over P ("-" ++ n) := by
  simp only [Text.Over, String.toList_append, List.forall_mem_append]
  exact ⟨⟨by simpa using hd, hn⟩, ⟨by simpa using hd, hn⟩⟩

theorem Headed.over : Headed P k p → p.Over P
  | .short _ hc hp         =>
    over_of_forms (over_ofList.mpr (by simpa using hp))
      (by simpa using IsShort.over hd ⟨_, rfl, hc, hp⟩) (by simp)
  | .long _ hs hn          =>
    over_of_forms hn.over (fun f hf => (hs f hf).over hd) (by simpa using (over_dashed hd hn.over).1)
  | .singleDash _ hs hn _  =>
    over_of_forms hn.over (fun f hf => (hs f hf).over hd) (by simpa using (over_dashed hd hn.over).2)
  | .positional hn         => over_of_forms hn.over (by simp) (by simp)

end Heads

theorem IsFunction.over {f : String} (h : IsFunction P f) : Text.Over P f :=
  fun c hc => (h c hc).1

theorem IsVariable.over {v : String} (h : IsVariable P v) : Text.Over P v :=
  fun c hc => (h c hc).1

theorem Defaulted.over (h : Defaulted P p q) (hp : p.Over P) : q.Over P := by
  cases h
  case text hv     => exact { hp with default := fun _ h => Option.some.inj h ▸ hv }
  case function hf => exact { hp with defaultFn := fun _ h => Option.some.inj h ▸ hf.over }

theorem Chosen.over (h : Chosen P p q b) (hp : p.Over P) : q.Over P := by
  cases h
  case texts hc    => exact { hp with choices := hc }
  case function hf => exact { hp with choicesFn := fun _ h => Option.some.inj h ▸ hf.over }
  case default hc  =>
    have hfirst := hc _ List.mem_cons_self
    exact { hp with choices := hc, default := fun _ h => Option.some.inj h ▸ hfirst }

theorem Valued.over (h : Valued P p q) (hp : p.Over P) : q.Over P := by
  cases h
  case plain               => exact hp
  case default h           => exact h.over hp
  case choices h           => exact h.over hp
  case defaultFirst h h'   => exact h'.over (h.over hp)
  case choicesFirst h h'   => exact h'.over (h.over hp)

theorem Completed.over (hp : p.Over P) : Completed P p q → q.Over P
  | .flag _ he           => { hp with envVar := fun v hv => (he v hv).over }
  | .values _ hv hn _ he =>
    have hq := hv.over { hp with }
    { hq with valueNames := hn, envVar := fun v hv => (he v hv).over }

end Param

abbrev Param.Flat (p : Param) : Prop :=
  p.Over (isLineBreak · = false)

namespace Descriptor

variable {P : Char → Prop} {k : ParamKind} {text : String} {line : Int} {p : Param}

-- Only the help text takes up what follows the first line.
theorem over_of_read (h : read k text line = .ok p) (hd : P '-')
    (ht : ∀ c ∈ text.toList.takeWhile (· != '\n'), P c) : p.Over P :=
  have ⟨_, hp, hc⟩ := declares_of_read h ht
  hc.over (hp.over hd)

theorem flat_of_read (h : read k text line = .ok p)
    (ht : Text.Flat (text.toList.takeWhile (· != '\n'))) : p.Flat :=
  over_of_read h (by decide) ht

end Descriptor

end ShellArgs
