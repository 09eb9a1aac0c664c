import ShellArgs.Proofs.Builder.Run
import ShellArgs.Proofs.Completion.Dispatch

-- What is known of a cursor wherever words lead it: all that it remembers is about options of its
-- command, and once it has passed a positional or the end of the options it stays in this command.

namespace ShellArgs

theorem Param.kind_eq_option {p : Param} (h : 0 < p.valuesPerOccurrence) : p.kind = .option := by
  unfold valuesPerOccurrence at h
  split at h
  case h_1 hk => exact hk
  case h_2    => cases h

namespace Completion

open Outcome

namespace Cursor

variable {t : Tree} {s s' : Cursor} {p : Param} {w : String} {n : Nat}

-- How many values are waited for.
def missing (s : Cursor) : Nat :=
  match s.awaited with
  | some a => a.values
  | none   => 0

-- A cursor that has come to its command for good.
def Settled (s : Cursor) : Prop :=
  0 < s.positionals ∨ s.optionsEnded

-- What a cursor remembers is about its command.
structure Coherent (s : Cursor) : Prop where
  used   : ∀ n ∈ s.used, ∃ p ∈ s.command.options, p.name = n
  option : ∀ a, s.awaited = some a → a.option ∈ s.command.options ∧ a.option.kind = .option
  values : ∀ a, s.awaited = some a → 0 < a.values ∧ a.values ≤ a.option.valuesPerOccurrence
  ended  : s.optionsEnded → s.awaited = none

namespace Coherent

theorem start (c : Command) : Coherent { command := c } where
  used   := fun _ hn => nomatch hn
  option := fun _ ha => nomatch ha
  values := fun _ ha => nomatch ha
  ended  := fun _ => rfl

theorem missing_pos_iff (h : s.Coherent) : 0 < s.missing ↔ s.awaited ≠ none := by
  unfold missing
  cases ha : s.awaited
  case none   => simp
  case some a => simp [(h.values a ha).1]

theorem use (h : s.Coherent) (hp : p ∈ s.command.options) : (s.use p).Coherent where
  used := by
    intro m hm
    simp only [Cursor.use] at hm
    split at hm
    case isTrue => exact h.used m hm
    case isFalse =>
      cases List.mem_append.mp hm
      case inl hm => exact h.used m hm
      case inr hm => exact ⟨p, hp, (List.mem_singleton.mp hm).symm⟩
  option := h.option
  values := h.values
  ended  := h.ended

theorem give (h : s.Coherent) (ho : s.optionsEnded = false) (hp : p ∈ s.command.options) (n : Nat) :
    (s.give p n).Coherent := by
  unfold Cursor.give
  split
  case isTrue => exact h.use hp
  case isFalse hn =>
    simp only [Bool.or_eq_true, decide_eq_true_eq, not_or] at hn
    constructor
    case used  => exact (h.use hp).used
    case ended => exact fun he => absurd (ho.symm.trans he) Bool.false_ne_true
    case option =>
      rintro _ ⟨⟩
      exact ⟨hp, p.kind_eq_option (by omega)⟩
    case values =>
      rintro _ ⟨⟩
      exact ⟨by simp only; omega, Nat.sub_le _ n⟩

theorem cluster (h : s.Coherent) (ho : s.optionsEnded = false) (cs : List Char) :
    (s.cluster cs).Coherent := by
  fun_induction Cursor.cluster s cs
  case case1             => exact h
  case case2             => exact h
  case case3 hf _ hi     => exact hi (h.use (List.mem_of_find?_eq_some hf)) ho
  case case4 cs _ hf _   => exact h.give ho (List.mem_of_find?_eq_some hf) _

theorem dashed (h : s.Coherent) (ho : s.optionsEnded = false) (w : String) :
    (s.dashed w).Coherent := by
  unfold Cursor.dashed
  simp only
  split
  case h_1 hf => exact h.give ho (List.mem_of_find?_eq_some hf) _
  case h_2 =>
    split
    case isTrue  => exact h
    case isFalse => exact h.cluster ho _

theorem takeValue {a : Awaited} (h : s.Coherent) (ha : s.awaited = some a) :
    (s.takeValue a).Coherent := by
  unfold Cursor.takeValue
  split
  case isTrue =>
    constructor
    case used   => exact h.used
    case option => exact fun _ hb => nomatch hb
    case values => exact fun _ hb => nomatch hb
    case ended  => exact fun _ => rfl
  case isFalse hn =>
    constructor
    case used  => exact h.used
    case ended => exact fun he => absurd (ha.symm.trans (h.ended he)) (Option.some_ne_none a)
    case option =>
      rintro _ ⟨⟩
      exact h.option a ha
    case values =>
      rintro _ ⟨⟩
      have := h.values a ha
      simp only
      omega

end Coherent

theorem Moves.coherent (m : Moves t s w s') (h : s.Coherent) : s'.Coherent := by
  cases m
  case value ha         => exact h.takeValue ha
  case ended ho _       => exact ⟨h.used, h.option, h.values, fun _ => ho.awaited⟩
  case dashed ho _ _    => exact h.dashed ho.options w
  case called           => exact .start _
  case collected        => exact ⟨h.used, h.option, h.values, h.ended⟩

theorem Moves.settled (m : Moves t s w s') (h : s.Settled) :
    s'.Settled ∧ s'.command = s.command ∧ s.positionals ≤ s'.positionals := by
  cases m
  case value     => exact ⟨h, rfl, Nat.le_refl _⟩
  case ended     => exact ⟨.inr rfl, rfl, Nat.le_refl _⟩
  case dashed    => simpa [Settled] using h
  case collected => exact ⟨.inl (Nat.succ_pos _), rfl, Nat.le_succ _⟩
  case called ho _ hp _ =>
    cases h
    case inl h => omega
    case inr h => exact absurd (ho.options.symm.trans h) Bool.false_ne_true

-- However many words follow, a settled cursor only counts on.
theorem Settled.foldlM {ws : List String} (h : s.Settled) (hs : ws.foldlM (step t) s = .ok s') :
    s'.Settled ∧ s'.command = s.command ∧ s.positionals ≤ s'.positionals := by
  refine foldlM_kept (fun k => k.Settled ∧ k.command = s.command ∧ s.positionals ≤ k.positionals)
    ?_ ⟨h, rfl, Nat.le_refl _⟩ hs
  rintro k w k' ⟨hk, hc, hp⟩ hs
  have ⟨hk', hc', hp'⟩ := (step_eq_ok_iff.mp hs).settled hk
  exact ⟨hk', hc'.trans hc, hp.trans hp'⟩

end Cursor

-- The tree need not hold together for this.
theorem coherent_replay {t : Tree} {s : Cursor} {ws : List String} (h : replay t ws = .ok s) :
    s.Coherent := by
  have ⟨r, _, h⟩ := bind_eq_ok_iff.mp h
  exact foldlM_kept Cursor.Coherent (fun _ _ _ hk hs => (Cursor.step_eq_ok_iff.mp hs).coherent hk)
    (.start r) h

-- In the tree of a script, words lead to a command below the root, where exactly a cursor that
-- misses values waits for an option of the command. A cursor that has settled there stays, whatever
-- words follow.
theorem replay_settles (ds : List Directive) : ∃ t problems, Tree.ofDirectives ds = .ok (t, problems) ∧
    ∀ us vs, ∃ s s', replay t us = .ok s ∧ replay t (us ++ vs) = .ok s' ∧
      s.command ∈ t.nodes ∧ (∃ way, t.Way way s.command) ∧
      s.Coherent ∧ (s.awaited ≠ none ↔ 0 < s.missing) ∧
      (s.Settled → s'.Settled ∧ s'.command = s.command ∧ s.positionals ≤ s'.positionals) := by
  have ⟨t, problems, ht, sound⟩ := Tree.ofDirectives_eq_ok ds
  refine ⟨t, problems, ht, fun us vs => ?_⟩
  have ⟨s, way, hs, hway, _⟩ := replay_eq_ok sound us
  have ⟨s', _, hs', _⟩ := replay_eq_ok sound (us ++ vs)
  have hfold : vs.foldlM (Cursor.step t) s = .ok s' := by
    rw [← hs', replay_append, hs, ok_bind]
  have hc := coherent_replay hs
  exact ⟨s, s', hs, hs', hway.mem_nodes, ⟨way, hway⟩, hc, hc.missing_pos_iff.symm,
    fun h => h.foldlM hfold⟩

-- A positional holds a cursor in its command while an option waits for its second value, and keeps
-- the name of the command from being looked up once more.
theorem replay_settles_option :
    let ds : List Directive :=
      [⟨.command, "Start", 1⟩, ⟨.option, "-o <X> <Y>", 2⟩, ⟨.function, "start", 3⟩]
    let words := ["start", "file", "-o", "1"]
    ∃ t problems s s', Tree.ofDirectives ds = .ok (t, problems) ∧ replay t words = .ok s ∧
      s.command.name = "start" ∧ s.Settled ∧ s.missing = 1 ∧ s.awaited ≠ none ∧
      replay t (words ++ ["2", "start"]) = .ok s' ∧ s'.command = s.command := by
  intro ds words
  obtain ⟨t, problems, ht, hall⟩ := replay_settles ds
  obtain ⟨s, s', hs, hs', _, _, _, hwaits, hsettled⟩ := hall words ["2", "start"]
  have he : (Tree.ofDirectives ds).toOption.any fun r => (replay r.1 words).toOption.any fun s =>
      s.command.name = "start" ∧ 0 < s.positionals ∧ s.missing = 1 := by
    decide +kernel
  simp only [ht, hs, Except.toOption, Option.any_some, decide_eq_true_eq] at he
  obtain ⟨hname, hpos, hmissing⟩ := he
  obtain ⟨_, hcommand, _⟩ := hsettled (.inl hpos)
  exact ⟨t, problems, s, s', ht, hs, hname, .inl hpos, hmissing, hwaits.mpr (by omega), hs', hcommand⟩

end Completion

end ShellArgs
