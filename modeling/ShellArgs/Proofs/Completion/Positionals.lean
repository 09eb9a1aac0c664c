import ShellArgs.Completion.Candidates
import ShellArgs.Proofs.Routine.Collected
import ShellArgs.Proofs.Tree.Shadowing

-- The positional that is completed at a place is the one that a routine gives the word at this
-- place. This needs the order of positionals: a variadic one is the last.

namespace ShellArgs

variable {c : Command} {p q : Param} {i j k : Nat}

-- Nothing stands behind a variadic positional.
theorem Param.le_of_multiple {ps : List Param} (h : ps.Pairwise Param.Precedes)
    (hp : ps[i]? = some p) (hm : p.multiple) (hq : ps[j]? = some q) : j ≤ i := by
  obtain ⟨hi, rfl⟩ := List.getElem?_eq_some_iff.mp hp
  obtain ⟨hj, rfl⟩ := List.getElem?_eq_some_iff.mp hq
  by_contra hij
  have hn := (List.pairwise_iff_getElem.mp h i j hi hj (by omega)).1
  exact absurd (hn.symm.trans hm) Bool.false_ne_true

namespace Completion

open Routine Shell

theorem positionalAt_eq_some_iff (h : c.positionals.Pairwise Param.Precedes) :
    positionalAt c k = some p ↔ ∃ i, c.positionals[i]? = some p ∧ (share p i).covers k := by
  unfold positionalAt
  simp only [covers_share_iff]
  cases hk : c.positionals[k]?
  case some q =>
    constructor
    case mp =>
      rintro ⟨⟩
      exact ⟨k, hk, by simp⟩
    case mpr =>
      rintro ⟨i, hp, hi⟩
      have hik : i = k := by
        split at hi
        case isTrue hm => exact Nat.le_antisymm hi (Param.le_of_multiple h hp hm hk)
        case isFalse   => exact hi
      rw [← hp, hik, hk]
  case none =>
    have hlen := List.getElem?_eq_none_iff.mp hk
    simp only [List.getLast?_eq_getElem?, Option.filter_eq_some_iff]
    constructor
    case mp =>
      rintro ⟨hp, hm⟩
      exact ⟨_, hp, by simp only [hm, if_true]; omega⟩
    case mpr =>
      rintro ⟨i, hp, hi⟩
      have ⟨hlt, _⟩ := List.getElem?_eq_some_iff.mp hp
      split at hi
      case isFalse   => omega
      case isTrue hm =>
        have hend : c.positionals.length - 1 < c.positionals.length := by omega
        have hle := Param.le_of_multiple h hp hm (List.getElem?_eq_getElem hend)
        rw [show c.positionals.length - 1 = i by omega]
        exact ⟨hp, hm⟩

theorem positionalAt_eq_none_iff (h : c.positionals.Pairwise Param.Precedes) :
    positionalAt c k = none ↔ ∃ m, mostWords? c.positionals = some m ∧ m ≤ k := by
  unfold mostWords?
  split
  case isTrue hany =>
    -- A variadic positional takes all the words from its place on, and others those before.
    obtain ⟨p, hp, hm⟩ := List.any_eq_true.mp hany
    obtain ⟨i, hi, rfl⟩ := List.getElem_of_mem hp
    refine iff_of_false (fun hnone => ?_) (by simp)
    have hno {j : Nat} {q : Param} (hq : c.positionals[j]? = some q)
        (hj : if q.multiple then j ≤ k else j = k) : False := by
      have hsome := (positionalAt_eq_some_iff h).mpr ⟨j, hq, covers_share_iff.mpr hj⟩
      cases hnone.symm.trans hsome
    by_cases hik : i ≤ k
    case pos => exact hno (List.getElem?_eq_getElem hi) (by rwa [if_pos hm])
    case neg => exact hno (List.getElem?_eq_getElem (by omega : k < _)) (by simp)
  case isFalse hany =>
    have hnone (p : Param) (hp : c.positionals.getLast? = some p) : ¬ p.multiple :=
      fun hm => hany (List.any_eq_true.mpr ⟨p, List.mem_of_getLast? hp, hm⟩)
    unfold positionalAt
    split
    case h_1 p hp =>
      have ⟨hk, _⟩ := List.getElem?_eq_some_iff.mp hp
      simpa using hk
    case h_2 hk => simpa [List.getElem?_eq_none_iff.mp hk] using hnone

-- What is completed is what a routine makes of the words that it collects, however many there are.
theorem positionalAt_agrees (text : String) : ∃ r, check text = .ok r ∧ (r.ok → ∀ c ∈ r.tree.nodes,
    ∀ k stem hasChildren, let block := positionalBlock c stem hasChildren
    (∀ p, positionalAt c k = some p ↔
      ∃ i, c.positionals[i]? = some p ∧ if p.multiple then i ≤ k else i = k) ∧
    (∀ p ∈ c.positionals, ∀ n, k < n → (positionalAt c k = some p ↔
      ∃ s ∈ counted n block, Takes (p.varName stem) k s)) ∧
    (positionalAt c k = none ↔ ∃ place, rejection hasChildren place ∈ counted (k + 1) block)) := by
  have ⟨r, hr⟩ := check_total text
  refine ⟨r, hr, fun ho c hc k stem hasChildren => ?_⟩
  have ⟨_, _, a⟩ := accepted_of_check hr ho
  have ⟨_, _, horder⟩ := Tree.not_breaks_iff.mp (a.not_breaks hc)
  have hnames : (c.positionals.map (·.varName stem)).Nodup :=
    (nodup_variables_of_check hr ho hc).sublist (List.filter_sublist.map _)
  refine ⟨fun p => ?_, fun p hp n hn => ?_, ?_⟩
  · simpa only [covers_share_iff] using positionalAt_eq_some_iff horder
  · rw [positionalAt_eq_some_iff horder, exists_takes_iff hnames hp hn]
  · simp only [positionalAt_eq_none_iff horder, exists_rejection_iff, Nat.lt_succ_iff]

-- A variadic positional takes the fifth word, which is one too many for the command above.
theorem positionalAt_agrees_copy : ∃ r, check
    "# @cmd Copy\n# @arg to!\n# @arg from*\ncopy() \x7b :; \x7d\n" = .ok r ∧ r.ok ∧
      (∃ c ∈ r.tree.nodes, ∃ p, positionalAt c 4 = some p ∧ p.name = "from" ∧
        ∃ s ∈ counted 5 (positionalBlock c "argsh" false), Takes (p.varName "argsh") 4 s) ∧
      ∃ c ∈ r.tree.nodes, positionalAt c 4 = none ∧
        ∃ place, rejection true place ∈ counted 5 (positionalBlock c "argsh" true) := by
  obtain ⟨r, hr, hagrees⟩ :=
    positionalAt_agrees "# @cmd Copy\n# @arg to!\n# @arg from*\ncopy() \x7b :; \x7d\n"
  have he : (check "# @cmd Copy\n# @arg to!\n# @arg from*\ncopy() \x7b :; \x7d\n").toOption.map
      (fun r => (r.ok, r.tree.nodes.map fun c => (positionalAt c 4).map (·.name))) =
        some (true, [none, some "from"]) := by
    decide +kernel
  rw [hr] at he
  obtain ⟨ho, hnodes⟩ := Prod.mk.inj (Option.some.inj he)
  obtain ⟨root, hroot, hnone⟩ := List.mem_map.mp (hnodes ▸ List.mem_cons_self)
  obtain ⟨c, hc, hsome⟩ := List.mem_map.mp (hnodes ▸ List.mem_cons_of_mem _ List.mem_cons_self)
  obtain ⟨p, hp, hname⟩ := Option.map_eq_some_iff.mp hsome
  have ⟨hplace, htakes, _⟩ := hagrees ho c hc 4 "argsh" false
  have ⟨_, _, hrejects⟩ := hagrees ho root hroot 4 "argsh" true
  have ⟨_, hi, _⟩ := (hplace p).mp hp
  have hnone := Option.map_eq_none_iff.mp hnone
  exact ⟨r, hr, ho,
    ⟨c, hc, p, hp, hname, (htakes p (List.mem_of_getElem? hi) 5 (by decide)).mp hp⟩,
    root, hroot, hnone, hrejects.mp hnone⟩

end Completion

end ShellArgs
