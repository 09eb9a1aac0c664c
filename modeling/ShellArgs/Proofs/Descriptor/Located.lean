import ShellArgs.Proofs.Descriptor.Declarations

-- Where descriptors fail. The place of a failure is in the first line, and nothing in the lines after
-- it has a part in the failure.

namespace ShellArgs.Descriptor

-- The line that is read as a descriptor.
def firstLine (text : String) : List Char :=
  text.toList.takeWhile (· != '\n')

-- A failure that is reported where it is, at the place of the first line from which on the text is left.
structure Failure.Located (f : Failure) (first : List Char) (line : Int) : Prop where
  reported : (f.diagnostic line).line = line
  severity : (f.diagnostic line).severity = .error
  stage    : (f.diagnostic line).stage = .grammar
  column   : (f.diagnostic line).column = some f.column
  least    : 1 ≤ f.column
  most     : f.column ≤ first.length + 1
  place    : f.reach.rest = first.drop (f.column - 1)

variable {kind : ParamKind} {text : String} {line : Int} {f : Failure} {first : List Char}

theorem Failure.located (h : f.reach.rest <:+ f.descriptor) (line : Int) :
    f.Located f.descriptor line where
  reported := rfl
  severity := rfl
  stage    := rfl
  column   := rfl
  least    := Nat.le_add_left 1 _
  most     := Nat.add_le_add_right (Nat.sub_le _ _) 1
  place    := List.suffix_iff_eq_drop.mp h

-- The grammar starts at the beginning of the first line and does not get past its end.
theorem reach_suffix (kind : ParamKind) (s : List Char) :
    (Rule.descriptor kind s ⟨s, .descriptor⟩).2.rest <:+ s := by
  have hruns := Rule.descriptor_makes (P := fun _ => True) kind s fun _ _ => trivial
  rcases hruns.reach ⟨s, .descriptor⟩ with h | h
  case inl => rw [h]
  case inr => exact h

-- The lines after the first one have no part in what the grammar makes of it.
theorem read_eq (h : firstLine text = first) : read kind text line =
    match Rule.descriptor kind first ⟨first, .descriptor⟩ with
    | (some (p, _), _) =>
      let more := (text.toList.dropWhile (· != '\n')).drop 1
      .ok { p with help := joinHelp p.help (String.ofList more), line }
    | (none, reach)    => .error ⟨kind, first, reach⟩ := by
  subst h
  rfl

-- A descriptor is read, or it has one error, which is at a place in the first line. Which of them it
-- is, and all but the help text, does not depend on the lines after the first one.
theorem read_located (kind : ParamKind) (text : String) (line : Int) :
    (∃ p, read kind text line = .ok p ∧
      ∀ text', firstLine text' = firstLine text →
        ∃ help, read kind text' line = .ok { p with help }) ∨
    ∃ f, read kind text line = .error f ∧ f.Located (firstLine text) line ∧
      ∀ text', firstLine text' = firstLine text → read kind text' line = .error f := by
  rcases hx : Rule.descriptor kind (firstLine text) ⟨firstLine text, .descriptor⟩ with
    ⟨_ | ⟨p, _⟩, reach⟩
  case some =>
    refine .inl ⟨_, by rw [read_eq rfl, hx], fun text' h => ⟨_, by rw [read_eq h, hx]⟩⟩
  case none =>
    have hs := reach_suffix kind (firstLine text)
    rw [hx] at hs
    let f : Failure := ⟨kind, firstLine text, reach⟩
    refine .inr ⟨f, ?_, f.located hs line, fun text' h => ?_⟩
    case refine_1 => rw [read_eq rfl, hx]
    case refine_2 => rw [read_eq h, hx]

-- A group of choices that is left open fails at the end of the first line.
theorem read_located_open : ∃ f, read .option "--mode[fast" 7 = .error f ∧
    f.Located "--mode[fast".toList 7 ∧ f.column = 12 ∧
    read .option "--mode[fast\n|slow]" 7 = .error f := by
  rcases read_located .option "--mode[fast" 7 with ⟨p, hp, _⟩ | ⟨f, hf, hl, hsame⟩
  case inl =>
    have hfails : (read .option "--mode[fast" 7).toBool = false := by decide +kernel
    rw [hp] at hfails
    cases hfails
  case inr =>
    have hcolumn : (read .option "--mode[fast" 7).mapError Failure.column = .error 12 := by
      decide +kernel
    rw [hf] at hcolumn
    exact ⟨f, hf, hl, Except.error.inj hcolumn, hsame _ (by decide)⟩

end ShellArgs.Descriptor
