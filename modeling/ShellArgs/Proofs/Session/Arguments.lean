import ShellArgs.Proofs.Outcome
import ShellArgs.Session.Invocation

namespace ShellArgs

namespace Arguments

theorem read_word {forms : List OptionForm} {word : String} (rest : List String)
    (h : Text.startsWith word "-" = false) :
    read forms false (word :: rest) = .ok { words := word :: rest } := by
  have hne : word ≠ "--" := by
    rintro rfl
    revert h
    decide +kernel
  rw [read, if_neg hne]
  simp [h]

-- An option without a value, in front of further arguments.
theorem read_flag {forms : List OptionForm} {word : String} {rest : List String}
    {given : List (String × Option String)} {a : Arguments}
    (hw : word ≠ "--" ∧ Text.startsWith word "-" ∧ word ≠ "-")
    (hd : dashed forms word rest = .ok (given, rest)) (ha : read forms false rest = .ok a) :
    read forms false (word :: rest) = .ok { a with given := given ++ a.given } := by
  rw [read, if_neg hw.1, if_pos (by simp [hw])]
  split
  case h_1 h => cases hd.symm.trans h
  case h_2 h =>
    cases hd.symm.trans h
    rw [ha]
    rfl

end Arguments

namespace Invocation

def messageFlags : List String :=
  ["--json", "--plain", "--no-color", "--quiet", "-q", "--verbose", "-v", "--force", "-f"]

theorem dashed_messageFlag {g : String} (hg : g ∈ messageFlags) (rest : List String) :
    ∃ form, Arguments.dashed globalForms g rest = .ok ([(form, none)], rest) ∧
      form ≠ "--help" ∧ form ≠ "--version" := by
  simp only [messageFlags, List.mem_cons, List.not_mem_nil, or_false] at hg
  rcases hg with rfl | rfl | rfl | rfl | rfl | rfl | rfl | rfl | rfl <;>
    exact ⟨_, rfl, by decide, by decide⟩

theorem isFlag_messageFlag {g : String} (hg : g ∈ messageFlags) :
    g ≠ "--" ∧ Text.startsWith g "-" ∧ g ≠ "-" := by
  have : ∀ g ∈ messageFlags, g ≠ "--" ∧ Text.startsWith g "-" ∧ g ≠ "-" := by decide +kernel
  exact this g hg

theorem read_messageFlags {gs args : List String} {a : Arguments}
    (hgs : ∀ g ∈ gs, g ∈ messageFlags) (ha : Arguments.read globalForms false args = .ok a) :
    ∃ given, Arguments.read globalForms false (gs ++ args) =
        .ok { a with given := given ++ a.given } ∧
      ∀ o ∈ given, o.1 ≠ "--help" ∧ o.1 ≠ "--version" := by
  induction gs with
  | nil => exact ⟨[], ha, by simp⟩
  | cons g gs hi =>
    have ⟨given, hread, ho⟩ := hi fun g' hg => hgs g' (List.mem_cons_of_mem g hg)
    have hg := hgs g List.mem_cons_self
    have ⟨form, hd, hform⟩ := dashed_messageFlag hg (gs ++ args)
    refine ⟨(form, none) :: given, ?_, ?_⟩
    case refine_1 =>
      rw [List.cons_append, Arguments.read_flag (isFlag_messageFlag hg) hd hread]
      rfl
    case refine_2 =>
      intro o hm
      rcases List.mem_cons.mp hm with rfl | hm
      case inl => exact hform
      case inr => exact ho o hm

theorem told_eq_none {a : Arguments} (h : ∀ o ∈ a.given, o.1 ≠ "--help" ∧ o.1 ≠ "--version") :
    told? a = none := by
  simp only [told?, List.find?_eq_none, List.mem_map]
  rintro _ ⟨o, ho, rfl⟩
  simpa using h o ho

-- What a command is asked for does not depend on the flags in front of it.
theorem read_append (gs rest : List String) {name : String} {c : Command}
    (hgs : ∀ g ∈ gs, g ∈ messageFlags) (hn : Text.startsWith name "-" = false)
    (hc : command? name = some c) :
    ∃ g, read (gs ++ name :: rest) = (c rest).map fun r =>
      match r with
      | some r => .run g r
      | none   => .help := by
  have ⟨given, hread, ho⟩ := read_messageFlags hgs (Arguments.read_word rest hn)
  let a : Arguments := { given := given ++ [], words := name :: rest }
  have ht : told? a = none := told_eq_none (by simpa [a] using ho)
  have hgroup : group globalForms command? (gs ++ name :: rest) = .ok (.command a c rest) := by
    rw [group, hread, Outcome.ok_bind]
    simp only [ht, hc, a]
    rfl
  refine ⟨globalFlags a, ?_⟩
  rw [read, hgroup]
  simp only [Outcome.ok_bind]
  rcases c rest with _ | _ | _ <;> rfl

theorem read_run {gs rest : List String} {name : String} {c : Command} {g : GlobalFlags}
    {r : Request} (hgs : ∀ g ∈ gs, g ∈ messageFlags) (hn : Text.startsWith name "-" = false)
    (hc : command? name = some c) (h : read (name :: rest) = .ok (.run g r)) :
    ∃ g', read (gs ++ name :: rest) = .ok (.run g' r) := by
  have ⟨g₀, h₀⟩ := read_append [] rest (by simp) hn hc
  have ⟨g', h'⟩ := read_append gs rest hgs hn hc
  rw [List.nil_append, h] at h₀
  refine ⟨g', ?_⟩
  rw [h']
  rcases hr : c rest with _ | _ | r' <;> rw [hr] at h₀ <;> cases h₀
  rfl

end Invocation

end ShellArgs
