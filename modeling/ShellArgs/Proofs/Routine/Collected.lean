import ShellArgs.Proofs.Routine.Diversion

-- What a routine does because of the number of words that it has collected. Positionals take their
-- shares of the words, and a word that is left over is an error.

namespace ShellArgs

namespace Routine

open Shell

variable {c : Command} {p : Param} {stem test : String} {hasChildren : Bool}
variable {l : Line} {ls ms : List Line} {s : Statement} {n m k : Nat}

theorem Share.value_inj {a b : Share} : a.value = b.value ↔ a = b := by
  cases a <;> cases b <;>
    simp [Share.value, expandQuoted, doubleQuoted, expand, Nat.repr_inj]

-- Opens a block that is entered if more words than this were collected.
def countTest (m : Nat) : Statement :=
  .text ("if " ++ moreWordsTest m ++ "; then")

theorem countTest_inj : countTest n = countTest m ↔ n = m := by
  simp [countTest, moreWordsTest, Nat.repr_inj]

-- The line opens a block that is entered if this many words were collected.
def opensFor (n : Nat) (l : Line) : Bool :=
  (List.range n).any fun m => l = (countTest m).line

-- The statements that run because this many words were collected.
def counted (n : Nat) (ls : List Line) : List Statement :=
  go false ls
where
  go : Bool → List Line → List Statement
    | _,     []      => []
    | false, l :: ls => go (opensFor n l) ls
    | true,  l :: ls => if l = line "fi" then go false ls else l.statement :: go true ls

-- Gives a variable a share of the collected words, with the word at a place in it.
def Takes (var : String) (k : Nat) (s : Statement) : Prop :=
  ∃ sh : Share, s = .assign ⟨var, false, sh.value⟩ ∧ sh.covers k

-- Reports the first one of the words that no positional takes.
def rejection (hasChildren : Bool) (place : Nat) : Statement :=
  let word := expand (wordsVar ++ "[" ++ toString place ++ "]")
  let message :=
    if hasChildren && place == 0 then "unknown command '" ++ word ++ "'"
    else "unexpected argument '" ++ word ++ "'"
  .text ("_argsh_error " ++ doubleQuoted message)

section Counts

-- The statement opens a block that is entered if enough words were collected.
def Counts (s : Statement) : Prop :=
  ∃ m, s = countTest m

-- A text that starts otherwise than the test of a number does.
@[simp] theorem not_counts_text {s : String} (h : ¬ "if [ \"$".toList <+: s.toList) :
    ¬ Counts (.text s) := by
  rintro ⟨m, hm⟩
  cases hm
  exact h (by simp [moreWordsTest, wordCount, expandQuoted, doubleQuoted, expand])

@[simp] theorem not_counts_assign {a : Assignment} : ¬ Counts (.assign a) :=
  fun ⟨_, h⟩ => nomatch h

@[simp] theorem not_counts_overArray {element array : String} :
    ¬ Counts (.overArray element array) :=
  fun ⟨_, h⟩ => nomatch h

-- A test of a variable is none of a number.
theorem not_counts_test (h : "[ -".toList <+: test.toList) :
    ¬ Counts (.text ("if " ++ test ++ "; then")) := by
  have ⟨rest, hrest⟩ := h
  exact not_counts_text (by simp [← hrest])

theorem without_counts_conditional (h : "[ -".toList <+: test.toList) :
    Without Counts (conditional test ls) ↔ Without Counts ls :=
  without_conditional (not_counts_test h) (by simp)

theorem without_counts_fallback : Without Counts (fallback p stem) := by
  have htest {test : String} {env : Assignment} (h : fromEnv? p stem = some (test, env)) :
      "[ -".toList <+: test.toList := by
    obtain ⟨e, _, h⟩ := Option.map_eq_some_iff.mp h
    split at h
    all_goals
      cases h
      simp [setTest]
  have hunset : "[ -".toList <+: (unsetTest (p.varName stem)).toList := by simp [unsetTest]
  simp only [fallback]
  split
  case h_1 test env value he hv =>
    simp [without_counts_conditional hunset, not_counts_test (htest he)]
  case h_2 test env he hv =>
    have hboth : "[ -".toList <+: (unsetTest (p.varName stem) ++ " && " ++ test).toList := by
      simp [unsetTest]
    simp [without_counts_conditional hboth]
  case h_3 value he hv => simp [without_counts_conditional hunset]
  case h_4 he hv       => simp

theorem without_counts_requiredCheck : Without Counts (requiredCheck p stem) := by
  unfold requiredCheck
  split <;> simp [setTest]

theorem without_counts_valueChecks : Without Counts (valueChecks p stem) := by
  have hchecks : Without Counts ((checkCommands p).map line) := by
    refine List.forall_mem_map.mpr fun s hs => ?_
    have ⟨rest, hrest⟩ := prefix_of_mem_checkCommands hs
    exact not_counts_text (by simp [← hrest])
  have hset : "[ -".toList <+: (setTest (p.varName stem)).toList := by simp [setTest]
  simp only [valueChecks]
  split
  case isTrue  => simp
  case isFalse => split <;> simp [without_counts_conditional hset, hchecks]

theorem without_counts_settle : Without Counts (settle p stem) := by
  simp [settle, without_counts_fallback, without_counts_requiredCheck, without_counts_valueChecks]

end Counts

section Counted

-- The share of a positional covers its own place, and that of a variadic one all that follow.
theorem covers_share_iff : (share p m).covers k ↔ if p.multiple then m ≤ k else m = k := by
  cases hm : p.multiple <;> simp [share, Share.covers, hm, eq_comm (a := k)]

theorem le_of_covers_share (h : (share p m).covers k) : m ≤ k := by
  rw [covers_share_iff] at h
  split at h
  case isTrue  => exact h
  case isFalse => exact Nat.le_of_eq h

theorem opensFor_eq_false_iff :
    opensFor n l = false ↔ ∀ m < n, l ≠ (countTest m).line := by
  simp [opensFor]

theorem opensFor_countTest : opensFor n (countTest m).line = decide (m < n) := by
  rw [Bool.eq_iff_iff]
  simp [opensFor, Statement.line, countTest_inj]

theorem counted_skip (h : ∀ l ∈ ls, opensFor n l = false) : counted n (ls ++ ms) = counted n ms := by
  induction ls
  case nil => rfl
  case cons l ls hi =>
    have ⟨hl, hls⟩ := List.forall_mem_cons.mp h
    simpa [counted, counted.go, hl] using hi hls

theorem opensFor_of_without (h : Without Counts ls) : ∀ l ∈ ls, opensFor n l = false := by
  refine fun l hl => opensFor_eq_false_iff.mpr ?_
  rintro m _ rfl
  exact h _ hl ⟨m, rfl⟩

theorem opensFor_indent : ∀ l ∈ indent ls, opensFor n l = false := by
  refine List.forall_mem_map.mpr fun l _ => opensFor_eq_false_iff.mpr fun m _ h => ?_
  cases congrArg Line.depth h

theorem counted_go_true : counted.go n true (indent ls ++ line "fi" :: ms) =
    ls.map (·.statement) ++ counted n ms := by
  induction ls
  case nil          => simp [indent, counted.go, counted]
  case cons l ls hi =>
    have hl : (⟨l.depth + 1, l.statement⟩ : Line) ≠ line "fi" := by
      intro h
      cases congrArg Line.depth h
    simpa [indent, counted.go, hl] using hi

-- A block is run as a whole or not at all.
theorem counted_conditional : counted n (conditional (moreWordsTest m) ls ++ ms) =
    (if m < n then ls.map (·.statement) else []) ++ counted n ms := by
  have hblock : conditional (moreWordsTest m) ls =
      (countTest m).line :: (indent ls ++ [line "fi"]) := rfl
  rw [hblock]
  by_cases hm : m < n
  case pos => simp [counted, counted.go, opensFor_countTest, hm, counted_go_true]
  case neg =>
    rw [if_neg hm, List.nil_append]
    refine counted_skip (List.forall_mem_cons.mpr ⟨by simp [opensFor_countTest, hm], ?_⟩)
    exact List.forall_mem_append.mpr ⟨opensFor_indent, opensFor_of_without (by simp)⟩

-- What runs for each of some parameters, at its place.
theorem counted_mapIdx {ps : List Param} {f : Nat → Param → List Line}
    {g : Nat → Param → List Statement}
    (h : ∀ i p ms, counted n (f i p ++ ms) = g i p ++ counted n ms) :
    counted n ((ps.mapIdx f).flatten ++ ms) = (ps.mapIdx g).flatten ++ counted n ms := by
  induction ps generalizing f g
  case nil          => rfl
  case cons p ps hi =>
    simp only [List.mapIdx_cons, List.flatten_cons, List.append_assoc, h]
    rw [hi fun i => h (i + 1)]

theorem counted_positionalBinding :
    counted n (positionalBinding p k stem ++ ms) =
      (if k < n then [.assign ⟨p.varName stem, false, (share p k).value⟩] else []) ++
        counted n ms :=
  counted_conditional

theorem counted_surplusCheck {ps : List Param} :
    counted n (surplusCheck ps hasChildren ++ ms) =
      ((mostWords? ps).filter (· < n)).toList.map (rejection hasChildren) ++ counted n ms := by
  unfold surplusCheck
  split
  case h_1 hm => simp [hm]
  case h_2 m hm =>
    rw [counted_conditional, hm, Option.filter_some]
    by_cases h : m < n <;> simp [h, rejection]

theorem mem_counted_positionalBlock : s ∈ counted n (positionalBlock c stem hasChildren) ↔
    (∃ i p, c.positionals[i]? = some p ∧ i < n ∧
      s = .assign ⟨p.varName stem, false, (share p i).value⟩) ∨
    ∃ m, mostWords? c.positionals = some m ∧ m < n ∧ s = rejection hasChildren m := by
  have hsettle : counted n (c.positionals.flatMap (settle · stem)) = [] := by
    rw [← List.append_nil (c.positionals.flatMap _)]
    exact counted_skip (opensFor_of_without (without_flatMap.mpr fun _ _ => without_counts_settle))
  rw [positionalBlock, List.append_assoc, counted_mapIdx fun _ _ _ => counted_positionalBinding,
    counted_surplusCheck, hsettle, List.append_nil, List.mem_append]
  refine or_congr ?_ (by simp [and_assoc, eq_comm (a := s)])
  simp only [List.mem_flatten, List.mem_mapIdx]
  constructor
  case mp =>
    rintro ⟨_, ⟨i, hi, rfl⟩, hs⟩
    split at hs
    case isTrue hn  => exact ⟨i, _, List.getElem?_eq_getElem hi, hn, List.mem_singleton.mp hs⟩
    case isFalse hn => cases hs
  case mpr =>
    rintro ⟨i, p, hp, hn, rfl⟩
    obtain ⟨hi, rfl⟩ := List.getElem?_eq_some_iff.mp hp
    exact ⟨_, ⟨i, hi, rfl⟩, by simp [hn]⟩

-- Only words that were collected are taken, by the positionals whose shares they are in.
theorem exists_takes_iff (hn : (c.positionals.map (·.varName stem)).Nodup) (hp : p ∈ c.positionals)
    (hk : k < n) :
    (∃ s ∈ counted n (positionalBlock c stem hasChildren), Takes (p.varName stem) k s) ↔
      ∃ i, c.positionals[i]? = some p ∧ (share p i).covers k := by
  constructor
  case mp =>
    rintro ⟨s, hs, sh, rfl, hsh⟩
    obtain ⟨i, q, hq, _, he⟩ | ⟨m, _, _, he⟩ := mem_counted_positionalBlock.mp hs
    case inl =>
      obtain ⟨hvar, _, hvalue⟩ := Assignment.mk.inj (Statement.assign.inj he)
      obtain rfl := List.inj_on_of_nodup_map hn hp (List.mem_of_getElem? hq) hvar
      exact ⟨i, hq, Share.value_inj.mp hvalue ▸ hsh⟩
    case inr => cases he
  case mpr =>
    rintro ⟨i, hi, hsh⟩
    have hin : i < n := Nat.lt_of_le_of_lt (le_of_covers_share hsh) hk
    exact ⟨_, mem_counted_positionalBlock.mpr (.inl ⟨i, p, hi, hin, rfl⟩), _, rfl, hsh⟩

theorem exists_rejection_iff :
    (∃ place, rejection hasChildren place ∈ counted n (positionalBlock c stem hasChildren)) ↔
      ∃ m, mostWords? c.positionals = some m ∧ m < n := by
  constructor
  case mp =>
    rintro ⟨place, h⟩
    obtain ⟨i, q, _, _, he⟩ | ⟨m, hm, hmn, _⟩ := mem_counted_positionalBlock.mp h
    case inl => cases he
    case inr => exact ⟨m, hm, hmn⟩
  case mpr =>
    rintro ⟨m, hm, hmn⟩
    exact ⟨m, mem_counted_positionalBlock.mpr (.inr ⟨m, hm, hmn, rfl⟩)⟩

end Counted

end Routine

end ShellArgs
