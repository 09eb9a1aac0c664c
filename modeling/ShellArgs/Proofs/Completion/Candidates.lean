import Mathlib.Data.List.Nodup
import ShellArgs.Completion.Candidates
import ShellArgs.Proofs.Completion.Moves

-- What is asked at the cursor, and what is among the candidates. All that is asked is about the
-- word at the cursor, and about parameters of the command that it stands in.

namespace ShellArgs.Completion

open Outcome

section Repetitions

variable {α : Type} [DecidableEq α]

theorem nodup_eraseDups : (as : List α) → as.eraseDups.Nodup
  | []      => List.nodup_nil
  | a :: as => by
    have : (as.filter (!· == a)).length < as.length + 1 :=
      Nat.lt_succ_of_le (List.length_filter_le _ _)
    rw [List.eraseDups_cons, List.nodup_cons, List.mem_eraseDups]
    exact ⟨by simp, nodup_eraseDups _⟩
termination_by as => as.length

-- It does not matter whether repetitions or other elements are left out first.
theorem eraseDups_filter (p : α → Bool) : (as : List α) → (as.filter p).eraseDups = as.eraseDups.filter p
  | []      => rfl
  | a :: as => by
    have : (as.filter (!· == a)).length < as.length + 1 :=
      Nat.lt_succ_of_le (List.length_filter_le _ _)
    have hi := eraseDups_filter p (as.filter (!· == a))
    cases hp : p a
    case true =>
      rw [List.filter_cons_of_pos hp, List.eraseDups_cons, List.eraseDups_cons,
        List.filter_cons_of_pos hp, ← hi, List.filter_comm]
    case false =>
      have hne : as.filter p = (as.filter (!· == a)).filter p := by
        rw [List.filter_filter]
        refine List.filter_congr fun b _ => ?_
        by_cases hb : b = a
        case pos => simp [hb, hp]
        case neg => simp [hb]
      rw [List.filter_cons_of_neg (by simp [hp]), List.eraseDups_cons,
        List.filter_cons_of_neg (by simp [hp]), ← hi, hne]
termination_by as => as.length

end Repetitions

-- The words between the name of the program and the cursor.
def Line.before (l : Line) : List String :=
  (l.words.take l.cursor.toNat).drop 1

-- The word at the cursor.
def Line.typed (l : Line) : String :=
  l.words[l.cursor.toNat]?.getD ""

-- What is asked at a cursor about a word: for the values of an option that awaits them, or that has
-- its form and an equals sign in the word, for the names of options, or for a word of any other kind.
inductive Asks (s : Cursor) (typed : String) : Question → Prop
  | values (ha : s.awaited = some a) : Asks s typed ⟨[], some a.option, typed, ""⟩
  | attached (ho : s.Open) (hd : Text.startsWith typed "-")
      (hc : Text.cut '=' typed = (form, some value)) (hf : s.command.findOption? form = some p)
      (hk : p.isFlag = false) : Asks s typed ⟨[], some p, value, form ++ "="⟩
  | names : Asks s typed ⟨known, none, typed, ""⟩
  | word (ha : s.awaited = none) (h : s.optionsEnded ∨ Text.startsWith typed "-" = false) :
      Asks s typed ⟨known, positionalAt s.command s.positionals, typed, ""⟩

section Candidates

variable {t : Tree} {s : Cursor} {l : Line} {typed x : String} {q : Question} {ws : List String}
  {runner : Option HookRunner} {addHelp : Bool}

theorem question_of_ask (h : ask t l addHelp = .ok (some (q, ws))) :
    ∃ s, replay t l.before = .ok s ∧ question t s l.typed addHelp = .ok (some q) := by
  unfold ask at h
  split at h
  case isTrue => cases h
  case isFalse =>
    have ⟨s, hs, h⟩ := bind_eq_ok_iff.mp h
    have ⟨q', hq, h⟩ := bind_eq_ok_iff.mp h
    cases q'
    case none => cases h
    case some =>
      cases h
      exact ⟨s, hs, hq⟩

theorem mem_matching_iff {texts : List String} :
    x ∈ matching texts typed ↔ x ∈ texts ∧ Text.startsWith x typed := by
  simp [matching]

theorem asks_of_question (h : question t s typed addHelp = .ok (some q)) : Asks s typed q := by
  unfold question at h
  split at h
  case h_1 ha =>
    cases h
    exact .values ha
  case h_2 ha =>
    split at h
    case isFalse hd =>
      have hd : s.optionsEnded ∨ Text.startsWith typed "-" = false := by
        cases he : s.optionsEnded
        case true  => exact .inl rfl
        case false => exact .inr (by simpa [he] using hd)
      simp only at h
      split at h
      all_goals
        have ⟨_, _, h⟩ := bind_eq_ok_iff.mp h
        cases h
        exact .word ha hd
    case isTrue hd =>
      simp only [Bool.and_eq_true, Bool.not_eq_true'] at hd
      have h := Except.ok.inj h
      unfold optionQuestion at h
      split at h
      case h_2 =>
        cases h
        exact .names
      case h_1 hc =>
        split at h
        case h_2 => cases h
        case h_1 hf =>
          split at h
          case isTrue => cases h
          case isFalse hk =>
            cases h
            exact .attached ⟨ha, hd.1⟩ hd.2 hc hf (by simpa using hk)

-- Whatever is asked is about the word at the cursor.
theorem before_append_typed (h : question t s typed addHelp = .ok (some q)) :
    q.before ++ q.typed = typed := by
  cases asks_of_question h
  case values | names | word => exact String.empty_append
  case attached hc _ _ =>
    rw [← String.toList_inj, Text.cut_some hc]
    simp

theorem startsWith_of_mem_answer (h : x ∈ (answer q ws runner).candidates) :
    Text.startsWith x (q.before ++ q.typed) := by
  have hmem : ∀ computed, x ∈ q.candidates computed → Text.startsWith x (q.before ++ q.typed) := by
    intro computed h
    have ⟨y, hy, hx⟩ := List.mem_map.mp h
    have hy := Text.startsWith_iff.mp (mem_matching_iff.mp hy).2
    rw [← hx, Text.startsWith_iff, String.toList_append, String.toList_append]
    exact (List.prefix_append_right_inj _).mpr hy
  unfold answer at h
  split at h
  case h_2 => exact hmem _ h
  case h_1 =>
    simp only at h
    split at h
    case h_1 => exact hmem _ h
    case h_2 => exact hmem _ h
    case h_3 => cases h

theorem mem_candidates (computed : List String) (hs : Text.startsWith x q.typed)
    (h : x ∈ q.known ∨ ∃ p, q.source = some p ∧ x ∈ p.choices) :
    q.before ++ x ∈ q.candidates computed := by
  refine List.mem_map.mpr ⟨x, mem_matching_iff.mpr ⟨List.mem_append.mpr (h.imp_right ?_), hs⟩, rfl⟩
  intro ⟨p, hp, hx⟩
  rw [hp]
  exact List.mem_append_left _ hx

-- Without a function to call, a question is answered from what is known.
theorem answer_of_no_hook (h : q.source.bind (nonempty? ·.choicesFn) = none) (ws : List String)
    (runner : Option HookRunner) : answer q ws runner = { candidates := q.candidates [] } := by
  unfold answer
  split
  case h_1 hfn => cases h.symm.trans hfn
  case h_2     => rfl

theorem answer_none : answer q ws none = { candidates := q.candidates [] } := by
  unfold answer
  split
  case h_1 hr => cases hr
  case h_2    => rfl

theorem answer_hook {p : Param} {fn : String} (hq : q.source = some p)
    (hfn : nonempty? p.choicesFn = some fn) (ws : List String) (run : HookRunner) :
    answer q ws (some run) =
      match run fn ws with
      | .lines ls      => { candidates := q.candidates ls, calls := [⟨fn, ws⟩] }
      | .failed reason => {
          candidates := q.candidates []
          diagnostics := [hookWarning p reason]
          calls := [⟨fn, ws⟩] }
      | .crashed       => { calls := [⟨fn, ws⟩] } := by
  cases h : run fn ws
  all_goals
    unfold answer
    simp only [hq, Option.bind_some, hfn, h]

theorem candidates_answer_none : (answer q ws none).candidates = q.candidates [] := by
  rw [answer_none]

theorem candidates_answer_hook {p : Param} {fn : String} (hq : q.source = some p)
    (hfn : nonempty? p.choicesFn = some fn) (run : HookRunner) :
    (answer q ws (some run)).candidates =
      match run fn ws with
      | .lines ls => q.candidates ls
      | .failed _ => q.candidates []
      | .crashed  => [] := by
  rw [answer_hook hq hfn]
  cases run fn ws <;> rfl

end Candidates

end ShellArgs.Completion
