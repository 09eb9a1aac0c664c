import ShellArgs.Proofs.Completion.Dispatch
import ShellArgs.Proofs.Routine.Arms

namespace ShellArgs

namespace Completion.Cursor

open Routine

variable {k : Cursor} {p : Param} {c : Char} {cs : List Char} {f w : String} {n : Nat}

theorem give_flag (hk : p.isFlag) : k.give p n = k.use p := by
  simp [give, hk]

theorem mem_used_use {m : String} : m ∈ (k.use p).used ↔ m ∈ k.used ∨ m = p.name := by
  unfold use
  split
  case isFalse => simp
  case isTrue h =>
    refine ⟨.inl, fun hm => hm.elim id fun he => ?_⟩
    simpa [he] using h

theorem isDashed_iff : isDashed w ↔ ∃ x cs, w.toList = '-' :: x :: cs := by
  have hne : w ≠ "-" ↔ w.toList ≠ ['-'] := by
    rw [ne_eq, ← String.toList_inj]
    rfl
  simp only [isDashed, Bool.and_eq_true, decide_eq_true_eq, Text.startsWith_iff, hne]
  match w.toList with
  | []          => simp
  | [c]         => simp [eq_comm]
  | _ :: _ :: _ => simp [eq_comm]

-- What values must not look like is what a cursor takes for an option.
theorem isDashed_eq : isDashed w = optionLike.covers w := by
  rw [Bool.eq_iff_iff, isDashed_iff, optionLike, Shell.Pattern.covers_dash_char]

theorem ne_dashes (hw : w.toList = '-' :: c :: cs) (h : c ≠ '-' ∨ cs ≠ []) : w ≠ "--" := by
  rintro rfl
  obtain ⟨rfl, rfl⟩ : '-' = c ∧ [] = cs := by simpa using hw
  simp at h

section Open

variable {t : Tree} (ho : k.Open)

include ho

theorem step_dashed (hw : w.toList = '-' :: c :: cs) (hne : w ≠ "--") :
    step t k w = .ok (k.dashed w) :=
  step_eq_ok_iff.mpr (.dashed ho (isDashed_iff.mpr ⟨c, cs, hw⟩) hne)

theorem step_word {d : Option Command} (hd : isDashed w = false)
    (hf : t.findChild k.command w = .ok d) :
    step t k w = .ok (match if k.positionals = 0 then d else none with
      | some c => { command := c }
      | none   => k.collect) := by
  have hne := ne_dashes_of_isDashed_eq_false hd
  by_cases hp : k.positionals = 0
  case neg => simp [step, ho.awaited, ho.options, hne, hd, hp]
  case pos => cases d <;> simp [step, ho.awaited, ho.options, hne, hd, hp, hf]

-- Values that are waited for are passed over.
theorem foldlM_awaited {m : Nat} {ws : List String} (hl : m + 1 ≤ ws.length) :
    ws.foldlM (step t) { k.use p with awaited := some ⟨p, m + 1⟩ } =
      (ws.drop (m + 1)).foldlM (step t) (k.use p) := by
  have hu : { k.use p with awaited := none } = k.use p := by simp [use, ho.awaited]
  induction m generalizing ws
  case zero =>
    cases ws
    case nil       => simp at hl
    case cons w ws =>
      have hs : step t { k.use p with awaited := some ⟨p, 0 + 1⟩ } w = .ok { k.use p with awaited := none } :=
        rfl
      rw [List.foldlM_cons, hs, hu, Outcome.ok_bind]
      rfl
  case succ m hi =>
    cases ws
    case nil       => simp at hl
    case cons w ws =>
      have hl : m + 1 ≤ ws.length := by simpa using hl
      simpa [step, takeValue] using hi hl

-- An option is given, and its values are passed over.
theorem foldlM_give {ws : List String} (hl : p.valuesPerOccurrence - n ≤ ws.length) :
    ws.foldlM (step t) (k.give p n) =
      (ws.drop (p.valuesPerOccurrence - n)).foldlM (step t) (k.use p) := by
  unfold give
  split
  case isTrue hg =>
    have hz : p.valuesPerOccurrence - n = 0 := by
      simp only [Bool.or_eq_true, decide_eq_true_eq, Param.isFlag, beq_iff_eq] at hg
      obtain hg | hg := hg
      · simp [Param.valuesPerOccurrence, hg]
      · omega
    rw [hz, List.drop_zero]
  case isFalse hg =>
    obtain ⟨m, hm⟩ : ∃ m, p.valuesPerOccurrence - n = m + 1 := by
      simp only [Bool.or_eq_true, decide_eq_true_eq, not_or] at hg
      exact ⟨p.valuesPerOccurrence - n - 1, by omega⟩
    simp only [hm]
    exact foldlM_awaited ho (hm ▸ hl)

end Open

theorem foldlM_ended {t : Tree} (ws : List String) (ha : k.awaited = none) (he : k.optionsEnded) :
    ws.foldlM (step t) k = .ok { k with positionals := k.positionals + ws.length } := by
  induction ws generalizing k
  case nil => rfl
  case cons w ws hi =>
    have hs : step t k w = .ok k.collect := by simp [step, ha, he]
    rw [List.foldlM_cons, hs, Outcome.ok_bind, hi (k := k.collect) ha he]
    simp [collect, Nat.add_assoc, Nat.add_comm 1]

section Cluster

variable (hp : k.command.findOption? (String.ofList ['-', c]) = some p)

include hp

theorem cluster_singleton : k.cluster [c] = k.give p 0 := by
  rw [cluster, hp]
  cases hk : p.isFlag
  case false => simp [hk]
  case true  => simp [hk, give_flag, cluster]

theorem cluster_flag (hk : p.isFlag) : k.cluster (c :: cs) = (k.use p).cluster cs := by
  rw [cluster, hp]
  simp [hk]

theorem cluster_option (hk : p.isFlag = false) (hcs : cs ≠ []) : k.cluster (c :: cs) = k.give p 1 := by
  rw [cluster, hp]
  simp [hk, hcs]

end Cluster

theorem dashed_of_cut_eq_none (hn : k.command.findOption? (Text.cut '=' w).1 = none)
    (hw : w.toList = '-' :: c :: cs) (hc : c ≠ '-') : k.dashed w = k.cluster (c :: cs) := by
  have hs : Text.startsWith w "--" = false := by
    simp [← Bool.not_eq_true, Text.startsWith_iff, hw, Ne.symm hc]
  simp [dashed, hn, hs, hw]

variable (h : k.command.Formed) (hp : p ∈ k.command.options)

include h

theorem findOption?_dash : k.command.findOption? "-" = none := by
  cases hf : k.command.findOption? "-"
  case none   => rfl
  case some p =>
    have ⟨hp, hf⟩ := h.findOption?_iff.mp hf
    have ⟨c, cs, he⟩ := (h.isForm hp hf).toList_eq
    cases he

include hp

theorem dashed_form (hw : w ∈ p.forms) : k.dashed w = k.give p 0 := by
  have hf := h.find hp hw
  cases (h.isForm hp hw).eq_or_not_mem
  case inl he =>
    subst he
    have hn : k.command.findOption? (Text.cut '=' "-=").1 = none := findOption?_dash h
    rw [dashed_of_cut_eq_none hn rfl (by decide)]
    exact cluster_singleton hf
  case inr he => simp [dashed, Text.cut_of_not_mem he, hf]

theorem dashed_attached (hk : p.isFlag = false) (hf : f ∈ p.forms)
    (hw : Text.startsWith w (f ++ "=")) : k.dashed w = k.give p 1 := by
  have hfind := h.find hp hf
  obtain ⟨v, hv⟩ := Text.startsWith_iff.mp hw
  have hv : w.toList = f.toList ++ '=' :: v := by simpa using hv.symm
  cases (h.isForm hp hf).eq_or_not_mem
  case inl he =>
    subst he
    have hn : k.command.findOption? (Text.cut '=' w).1 = none := by
      rw [Text.cut_of_eq_append (a := ['-']) (b := '=' :: v) (by decide) (by simpa using hv)]
      exact findOption?_dash h
    rw [dashed_of_cut_eq_none hn (by simpa using hv) (by decide)]
    exact cluster_option hfind hk (by simp)
  case inr he => simp [dashed, Text.cut_of_eq_append he hv, hfind]

omit hp

-- A word that is no form and has no value attached is a cluster.
theorem dashed_cluster (hw : w.toList = '-' :: c :: cs) (hc : c ≠ '-') (hg : ¬ IsGiven k.command w) :
    k.dashed w = k.cluster (c :: cs) := by
  refine dashed_of_cut_eq_none ?_ hw hc
  cases hf : k.command.findOption? (Text.cut '=' w).1
  case none   => rfl
  case some p =>
    have ⟨hp, hf⟩ := h.findOption?_iff.mp hf
    refine absurd ⟨p, hp, _, hf, ?_⟩ hg
    cases hcut : Text.cut '=' w
    case mk a v =>
      cases v
      case none   => exact .inl (Text.cut_none hcut).symm
      case some v =>
        refine .inr (Text.startsWith_iff.mpr ⟨v.toList, ?_⟩)
        simp [Text.cut_some hcut]

-- A cluster ends at a second dash.
theorem dashed_flag (hp : p ∈ k.command.options) (hk : p.isFlag) (hf : String.ofList ['-', c] ∈ p.forms)
    (hw : w.toList = '-' :: c :: '-' :: cs) (hc : c ≠ '-') (hg : ¬ IsGiven k.command w) :
    k.dashed w = k.use p := by
  have hn : (k.use p).command.findOption? (String.ofList ['-', '-']) = none := by
    cases hf : (k.use p).command.findOption? (String.ofList ['-', '-'])
    case none   => rfl
    case some q =>
      have ⟨hq, hf⟩ := h.findOption?_iff.mp hf
      exact absurd rfl (h.isForm hq hf).ne_dashes
  rw [dashed_cluster h hw hc hg, cluster_flag (h.find hp hf) hk, cluster, hn]

end Completion.Cursor

end ShellArgs
