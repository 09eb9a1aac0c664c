import ShellArgs.Proofs.Descriptor.Declarations

namespace ShellArgs

open Descriptor

-- Two parameters that differ in their values only.
structure Param.SameForms (p q : Param) : Prop where
  kind  : q.kind = p.kind
  short : q.short = p.short
  long  : q.long = p.long

-- A parameter as the grammar declares it. A short form is a dash and a character, a long form
-- is a name after one dash or two.
structure Param.Declared (k : ParamKind) (p : Param) : Prop where
  kind  : p.kind = k
  short : ∀ {f : String}, p.short = some f → ∃ c, f.toList = ['-', c] ∧ c ≠ '-'
  long  : ∀ {f : String}, p.long = some f → ∃ cs, cs ≠ [] ∧ (∀ c ∈ cs, isNameChar c) ∧
    (f.toList = '-' :: '-' :: cs ∨ (f.toList = '-' :: cs ∧ cs.head? ≠ some '-'))

theorem Param.Declared.of_sameForms {k : ParamKind} {p q : Param} (d : p.Declared k)
    (h : p.SameForms q) : q.Declared k where
  kind  := h.kind.trans d.kind
  short := fun hf => d.short (h.short ▸ hf)
  long  := fun hf => d.long (h.long ▸ hf)

variable {P : Char → Prop} {k : ParamKind} {p q : Param} {text : String} {line : Int}

namespace Param

theorem IsShort.dashed {f : String} (h : IsShort P f) : ∃ c, f.toList = ['-', c] ∧ c ≠ '-' :=
  have ⟨c, hf, hc, _⟩ := h
  ⟨c, by rw [hf, String.toList_ofList], ne_dash_of_isShortChar hc⟩

theorem Headed.declared : Headed P k p → p.Declared k
  | .positional _ => ⟨rfl, (fun hf => nomatch hf), fun hf => nomatch hf⟩
  | .short _ hc hp => by
    refine ⟨rfl, fun hf => ?_, fun hf => nomatch hf⟩
    exact IsShort.dashed ⟨_, (Option.some.inj hf).symm, hc, hp⟩
  | .long _ hs hn => by
    refine ⟨rfl, fun hf => (hs _ hf).dashed, fun hf => ⟨_, hn.nonempty, ?_, .inl ?_⟩⟩
    case refine_1 => exact fun c hc => (hn.chars c hc).2
    case refine_2 => simp [← Option.some.inj hf]
  | .singleDash _ hs hn hd => by
    refine ⟨rfl, fun hf => (hs _ hf).dashed, fun hf => ⟨_, hn.nonempty, ?_, .inr ⟨?_, hd⟩⟩⟩
    case refine_1 => exact fun c hc => (hn.chars c hc).2
    case refine_2 => simp [← Option.some.inj hf]

theorem Valued.sameForms (h : Valued P p q) : p.SameForms q :=
  ⟨by rw [h.eq], by rw [h.eq], by rw [h.eq]⟩

theorem Completed.sameForms : Completed P p q → p.SameForms q
  | .flag ..        => ⟨rfl, rfl, rfl⟩
  | .values _ hv .. =>
    have h := hv.sameForms
    ⟨h.kind, h.short, h.long⟩

end Param

namespace Descriptor

theorem declared_of_read (h : read k text line = .ok p) : p.Declared k :=
  have ⟨_, hp, hc⟩ := declares_of_read (P := fun _ => True) h fun _ _ => trivial
  hp.declared.of_sameForms hc.sameForms

theorem line_of_read (h : read k text line = .ok p) : p.line = line := by
  obtain ⟨_, _, _, rfl⟩ := exists_of_read h
  rfl

end Descriptor

end ShellArgs
