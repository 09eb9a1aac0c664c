import ShellArgs.Completion.Cursor
import ShellArgs.Proofs.Outcome

-- What a word can do to a cursor: there is one constructor for each way to go on, with all that
-- has to hold for it.

namespace ShellArgs.Completion.Cursor

open Outcome

variable {t : Tree} {s s' : Cursor} {p : Param} {w : String} {n : Nat}

-- Options and flags are open to a cursor that neither waits for values nor is past the options.
structure Open (s : Cursor) : Prop where
  awaited : s.awaited = none
  options : s.optionsEnded = false

inductive Moves (t : Tree) (s : Cursor) (w : String) : Cursor → Prop
  | value (ha : s.awaited = some a) : Moves t s w (s.takeValue a)
  | ended (ho : s.Open) (hw : w = "--") : Moves t s w { s with optionsEnded := true }
  | dashed (ho : s.Open) (hd : isDashed w) (hw : w ≠ "--") : Moves t s w (s.dashed w)
  | called (ho : s.Open) (hd : isDashed w = false) (hp : s.positionals = 0)
      (hc : t.findChild s.command w = .ok (some c)) : Moves t s w { command := c }
  | collected (ha : s.awaited = none) (h : s.optionsEnded ∨ isDashed w = false ∧
      (s.positionals ≠ 0 ∨ t.findChild s.command w = .ok none)) : Moves t s w s.collect

theorem ne_dashes_of_isDashed_eq_false (h : isDashed w = false) : w ≠ "--" := by
  rintro rfl
  revert h
  decide

theorem moves_of_step (h : step t s w = .ok s') : Moves t s w s' := by
  unfold step at h
  split at h
  case h_1 ha =>
    cases h
    exact .value ha
  case h_2 ha =>
    split at h
    case isTrue he =>
      cases h
      exact .collected ha (.inl he)
    case isFalse he =>
      have ho : s.Open := ⟨ha, by simpa using he⟩
      split at h
      case isTrue hw =>
        cases h
        exact .ended ho hw
      case isFalse hw =>
        split at h
        case isTrue hd =>
          cases h
          exact .dashed ho hd hw
        case isFalse hd =>
          have hd : isDashed w = false := by simpa using hd
          split at h
          case isTrue hp =>
            cases h
            exact .collected ha (.inr ⟨hd, .inl hp⟩)
          case isFalse hp =>
            have ⟨d, hf, h⟩ := bind_eq_ok_iff.mp h
            cases d
            case none =>
              cases h
              exact .collected ha (.inr ⟨hd, .inr hf⟩)
            case some =>
              cases h
              exact .called ho hd (by simpa using hp) hf

theorem Moves.step_eq (m : Moves t s w s') : step t s w = .ok s' := by
  cases m
  case value ha        => simp [step, ha]
  case ended ho hw     => simp [step, ho.awaited, ho.options, hw]
  case dashed ho hd hw => simp [step, ho.awaited, ho.options, hd, hw]
  case called ho hd hp hc =>
    simp [step, ho.awaited, ho.options, ne_dashes_of_isDashed_eq_false hd, hd, hp, hc]
  case collected ha h =>
    by_cases he : s.optionsEnded
    case pos => simp [step, ha, he]
    case neg =>
      obtain ⟨hd, h⟩ := h.resolve_left he
      have hw := ne_dashes_of_isDashed_eq_false hd
      by_cases hp : s.positionals = 0
      case pos => simp [step, ha, he, hw, hd, hp, h.resolve_left (not_not_intro hp)]
      case neg => simp [step, ha, he, hw, hd, hp]

theorem step_eq_ok_iff : step t s w = .ok s' ↔ Moves t s w s' :=
  ⟨moves_of_step, Moves.step_eq⟩

-- Nothing but the search for a subcommand can fail.
theorem exists_moves (h : ∃ d, t.findChild s.command w = .ok d) : ∃ s', Moves t s w s' := by
  obtain ⟨d, hd⟩ := h
  cases ha : s.awaited
  case some a => exact ⟨_, .value ha⟩
  case none =>
    by_cases he : s.optionsEnded
    case pos => exact ⟨_, .collected ha (.inl he)⟩
    case neg =>
      have ho : s.Open := ⟨ha, by simpa using he⟩
      by_cases hw : w = "--"
      case pos => exact ⟨_, .ended ho hw⟩
      case neg =>
        cases hdash : isDashed w
        case true => exact ⟨_, .dashed ho hdash hw⟩
        case false =>
          by_cases hp : s.positionals = 0
          case neg => exact ⟨_, .collected ha (.inr ⟨hdash, .inl hp⟩)⟩
          case pos =>
            cases d
            case none   => exact ⟨_, .collected ha (.inr ⟨hdash, .inr hd⟩)⟩
            case some c => exact ⟨_, .called ho hdash hp hd⟩

-- Options and values change only what is given and what is waited for.
section Options

theorem exists_give_eq (s : Cursor) (p : Param) (n : Nat) :
    ∃ used awaited, s.give p n = { s with used, awaited } := by
  unfold give
  split
  case isTrue  => exact ⟨_, s.awaited, rfl⟩
  case isFalse => exact ⟨_, _, rfl⟩

theorem exists_cluster_eq (s : Cursor) (cs : List Char) :
    ∃ used awaited, s.cluster cs = { s with used, awaited } := by
  fun_induction cluster s cs
  case case1            => exact ⟨_, _, rfl⟩
  case case2            => exact ⟨_, _, rfl⟩
  case case3 hi         => exact hi
  case case4 s _ _ p _ _ => exact exists_give_eq s p _

theorem exists_dashed_eq (s : Cursor) (w : String) :
    ∃ used awaited, s.dashed w = { s with used, awaited } := by
  unfold dashed
  simp only
  split
  case h_1 => exact exists_give_eq s _ _
  case h_2 =>
    split
    case isTrue  => exact ⟨_, _, rfl⟩
    case isFalse => exact exists_cluster_eq s _

@[simp] theorem command_dashed : (s.dashed w).command = s.command := by
  have ⟨_, _, h⟩ := exists_dashed_eq s w
  rw [h]

@[simp] theorem positionals_dashed : (s.dashed w).positionals = s.positionals := by
  have ⟨_, _, h⟩ := exists_dashed_eq s w
  rw [h]

@[simp] theorem optionsEnded_dashed : (s.dashed w).optionsEnded = s.optionsEnded := by
  have ⟨_, _, h⟩ := exists_dashed_eq s w
  rw [h]

end Options

end ShellArgs.Completion.Cursor
