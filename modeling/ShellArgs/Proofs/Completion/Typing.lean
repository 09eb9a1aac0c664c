import ShellArgs.Proofs.Completion.Later

-- What the user types narrows the candidates. They are distinct and start with the text at the
-- cursor, and more text leaves those of them that start with it.

namespace ShellArgs

open Outcome

namespace Text

variable {s start more a b : String} {sep : Char}

theorem startsWith_iff_exists : startsWith s start ↔ ∃ t, s = start ++ t := by
  rw [startsWith_iff]
  constructor
  case mp =>
    rintro ⟨t, ht⟩
    exact ⟨String.ofList t, by simp [← String.toList_inj, ← ht]⟩
  case mpr =>
    rintro ⟨t, rfl⟩
    exact ⟨t.toList, by simp⟩

theorem startsWith_append_append (start s t : String) :
    startsWith (start ++ s) (start ++ t) = startsWith s t := by
  rw [Bool.eq_iff_iff, startsWith_iff, startsWith_iff, String.toList_append, String.toList_append,
    List.prefix_append_right_inj]

theorem not_mem_cut (sep : Char) (s : String) : sep ∉ (cut sep s).1.toList := by
  intro h
  simp only [cut, String.toList_ofList] at h
  simpa using List.mem_takeWhile_imp h

theorem cut_append (ha : sep ∉ a.toList) (b : String) :
    cut sep (a ++ String.singleton sep ++ b) = (a, some b) := by
  rw [cut_of_eq_append ha (b := b.toList) (by simp)]
  simp

-- What is appended belongs to the last piece.
theorem cut_more (h : sep ∉ more.toList) : cut sep (s ++ more) =
    match cut sep s with
    | (a, none)   => (a ++ more, none)
    | (a, some b) => (a, some (b ++ more)) := by
  split
  case h_1 a hc =>
    have ha := not_mem_cut sep s
    rw [hc] at ha
    rw [← cut_none hc, cut_of_not_mem (by simp [ha, h])]
  case h_2 a b hc =>
    have ha := not_mem_cut sep s
    rw [hc] at ha
    rw [cut_of_eq_append ha (b := b.toList ++ more.toList) (by simp [cut_some hc])]
    simp

end Text

namespace Completion

-- The forms that a block can have.
inductive IsBlock : List String → Prop
  | word   : IsBlock [w]
  | equals (h : opensBlock a) : IsBlock [a, "="]
  | value (h : opensBlock a) (hv : v ≠ "=") : IsBlock [a, "=", v]

-- What stands before the cursor in the block of a word.
inductive Inside : List String → String → Prop
  | first  : Inside [] w
  | equals (h : opensBlock a) : Inside [a] "="
  | value (h : opensBlock a) (hw : w ≠ "=") : Inside [a, "="] w

section Blocks

variable {inside : List String} {w : String}

theorem isBlock_of_mem_blocks (cursor : Int) (ws : List String) : ∀ b ∈ blocks cursor ws, IsBlock b := by
  fun_induction blocks cursor ws
  case case1 => simp
  case case2 => simpa using .word
  case case3 ho =>
    simp only [Bool.and_eq_true, decide_eq_true_eq] at ho
    simpa [ho.1] using IsBlock.equals ho.2
  case case4 ho v us hv hi =>
    simp only [Bool.and_eq_true, decide_eq_true_eq] at ho hv
    simpa [ho.1] using ⟨IsBlock.value ho.2 hv.2, hi⟩
  case case5 ho v us hv hi =>
    simp only [Bool.and_eq_true, decide_eq_true_eq] at ho
    simpa [ho.1] using ⟨IsBlock.equals ho.2, hi⟩
  case case6 hi => simpa using ⟨IsBlock.word, hi⟩

theorem inside_of_isBlock (h : IsBlock (inside ++ [w])) : Inside inside w := by
  generalize hb : inside ++ [w] = b at h
  cases h
  case word =>
    have hi : inside = [] := by simpa using congrArg List.length hb
    exact hi ▸ .first
  case equals a h =>
    have ⟨hi, hw⟩ := List.append_inj' (show inside ++ [w] = [a] ++ ["="] from hb) rfl
    cases hw
    exact hi ▸ .equals h
  case value a v h hv =>
    have ⟨hi, hw⟩ := List.append_inj' (show inside ++ [w] = [a, "="] ++ [v] from hb) rfl
    cases hw
    exact hi ▸ .value h hv

-- The last word does not change where the words before it are divided.
theorem exists_blocks_concat (cursor : Int) : (before : List String) →
    ∃ front inside, ∀ w, w ≠ "=" → blocks cursor (before ++ [w]) = front ++ [inside ++ [w]]
  | []  => ⟨[], [], fun _ _ => rfl⟩
  | [a] => ⟨[[a]], [], fun _ hw => blocks_single (by simp [hw])⟩
  | [a, e] => by
    by_cases h : opensBlock a ∧ e = "="
    case neg =>
      have ⟨front, inside, hb⟩ := exists_blocks_concat (cursor - 1) [e]
      exact ⟨[a] :: front, inside, fun w hw => by simpa [blocks_single h] using hb w hw⟩
    case pos =>
      obtain ⟨ha, rfl⟩ := h
      by_cases hc : cursor = 1
      case pos => exact ⟨[[a, "="]], [], fun _ _ => blocks_equals ha (.inl hc)⟩
      case neg => exact ⟨[], [a, "="], fun _ hw => blocks_value ha hc hw⟩
  | a :: e :: v :: us => by
    by_cases h : opensBlock a ∧ e = "="
    case neg =>
      have ⟨front, inside, hb⟩ := exists_blocks_concat (cursor - 1) (e :: v :: us)
      exact ⟨[a] :: front, inside, fun w hw => by simpa [blocks_single h] using hb w hw⟩
    case pos =>
      obtain ⟨ha, rfl⟩ := h
      by_cases hv : cursor = 1 ∨ v = "="
      case pos =>
        have ⟨front, inside, hb⟩ := exists_blocks_concat (cursor - 2) (v :: us)
        exact ⟨[a, "="] :: front, inside, fun w hw => by simpa [blocks_equals ha hv] using hb w hw⟩
      case neg =>
        obtain ⟨hc, hv⟩ := not_or.mp hv
        have ⟨front, inside, hb⟩ := exists_blocks_concat (cursor - 3) us
        exact ⟨[a, "=", v] :: front, inside, fun w hw => by
          simpa [blocks_value ha hc hv] using hb w hw⟩

end Blocks

theorem afterEquals_append {a : String} (ha : '=' ∉ a.toList) (b : String) :
    afterEquals (a ++ "=" ++ b) = b := by
  have hcut : Text.cut '=' (a ++ "=" ++ b) = (a, some b) := Text.cut_append ha b
  rw [afterEquals, hcut]
  rfl

-- The text that the user sees at the cursor. An `=` that is joined to an option is not part of it.
def typedAt (words : List String) (cursor : Nat) : String :=
  if words[cursor]? = some "=" ∧ (joinEquals words cursor).split then "" else words[cursor]?.getD ""

-- What is in front of the text that the user sees, in a word that is split or in one that is not.
inductive Start : Bool → String → Prop
  | whole : Start false ""
  | split (h : '=' ∉ a.toList) : Start true (a ++ "=")

section Line

variable {words : List String} {cursor : Nat}

theorem exists_line (h : cursor < words.length) :
    ∃ front inside rest later, Inside inside words[cursor] ∧ (inside ≠ [] → later = "") ∧
      joinEquals words cursor =
        ⟨front ++ (String.join (inside ++ [words[cursor]]) ++ later) :: rest, front.length,
          decide (inside ≠ [])⟩ := by
  have ⟨front, inside, hc⟩ := exists_cut words[cursor] (words.take cursor)
  have hlen : (words.take cursor).length = cursor := List.length_take_of_le (Nat.le_of_lt h)
  have hwords : words.take cursor ++ words[cursor] :: words.drop (cursor + 1) = words := by simp
  have ⟨rest, hj⟩ := hc.joinEquals_eq (words.drop (cursor + 1))
  have ⟨_, hb⟩ := hc.line []
  rw [hlen, hwords] at hj
  refine ⟨front.map String.join, inside, rest, _, ?_, ?_, by rw [hj, List.length_map]⟩
  case refine_1 =>
    exact inside_of_isBlock (isBlock_of_mem_blocks _ _ _ (by rw [hb]; simp [attached]))
  case refine_2 =>
    intro hi
    rw [if_neg (mt hc.opens hi)]

-- The word at the cursor of the line goes on from what the user sees.
theorem exists_start (words : List String) (cursor : Nat) :
    let l := joinEquals words cursor
    ∃ start, Start l.split start ∧ Text.startsWith l.typed (start ++ typedAt words cursor) := by
  intro l
  by_cases h : cursor < words.length
  case neg =>
    have hs : l.split = false := by
      have hlen : (blocks cursor words).flatten.length ≤ cursor := by
        rw [flatten_blocks]
        exact Nat.le_of_not_lt h
      have hcursor : ¬ (cursor : Int) < 0 := by omega
      simp [l, joinEquals, hcursor, locate_beyond hlen]
    have ht : typedAt words cursor = "" := by
      simp [typedAt, List.getElem?_eq_none (Nat.le_of_not_lt h)]
    exact ⟨"", hs ▸ .whole, by rw [ht]; exact Text.startsWith_empty _⟩
  case pos =>
    obtain ⟨front, inside, rest, later, hin, hlater, hl⟩ := exists_line h
    have hword : words[cursor]? = some words[cursor] := List.getElem?_eq_getElem h
    have htyped : l.typed = String.join (inside ++ [words[cursor]]) ++ later := by
      simp [l, hl, Line.typed]
    have hsplit : l.split = decide (inside ≠ []) := by simp only [l, hl]
    have hat : typedAt words cursor =
        if words[cursor] = "=" ∧ inside ≠ [] then "" else words[cursor] := by
      simp [typedAt, hword, hl]
    rw [htyped, hsplit, hat]
    generalize words[cursor] = w at hin
    cases hin
    case first =>
      exact ⟨"", .whole, by simpa using Text.startsWith_append _ _⟩
    case equals a ha =>
      exact ⟨_, .split (not_mem_of_opensBlock ha), by simpa [hlater] using Text.startsWith_self _⟩
    case value a ha hw =>
      exact ⟨_, .split (not_mem_of_opensBlock ha), by
        simpa [hlater, hw, String.append_assoc] using Text.startsWith_self _⟩

-- The same for all words at the cursor.
theorem exists_line_concat (before : List String) :
    ∃ front start split, Start split start ∧ ∀ w, w ≠ "=" →
      joinEquals (before ++ [w]) before.length = ⟨front ++ [start ++ w], front.length, split⟩ := by
  have ⟨front, inside, hb⟩ := exists_blocks_concat before.length before
  have hflat : front.flatten ++ inside = before := by
    have := flatten_blocks before.length (before ++ [""])
    rw [hb "" (by decide)] at this
    simpa [← List.append_assoc] using this
  refine ⟨front.map String.join, String.join inside, decide (inside ≠ []), ?_, fun w hw => ?_⟩
  case refine_1 =>
    have hin : Inside inside "" := inside_of_isBlock
      (isBlock_of_mem_blocks _ _ _ (by rw [hb "" (by decide)]; simp))
    generalize hw : "" = w at hin
    cases hin
    case first        => exact .whole
    case equals       => exact absurd hw (by decide)
    case value a ha _ => exact .split (not_mem_of_opensBlock ha)
  case refine_2 =>
    have hlen : before.length = front.flatten.length + inside.length := by
      rw [← hflat, List.length_append]
    have hloc := locate_append (b := inside ++ [w]) (n := inside.length) front [] (by simp)
    rw [joinEquals, hb w hw, if_neg (by omega), Int.toNat_natCast, hlen, hloc]
    simp [List.length_pos_iff]

end Line

section Candidates

variable {t : Tree} {s : Cursor} {q : Question} {l : Line} {typed more : String} {ws ws' : List String}
  {runner : Option HookRunner} {addHelp : Bool}

theorem matching_eq (texts : List String) (typed : String) :
    matching texts typed = texts.eraseDups.filter (Text.startsWith · typed) :=
  eraseDups_filter _ _

theorem matching_append (texts : List String) (typed more : String) :
    matching texts (typed ++ more) =
      (matching texts typed).filter (Text.startsWith · (typed ++ more)) := by
  rw [matching_eq, matching_eq, List.filter_filter]
  refine List.filter_congr fun x _ => ?_
  rw [Bool.eq_iff_iff, Bool.and_eq_true, iff_self_and]
  exact Text.startsWith_trans (Text.startsWith_append typed more)

theorem nodup_candidates (q : Question) (computed : List String) : (q.candidates computed).Nodup :=
  (nodup_eraseDups _).map fun _ _ h => by simpa using h

theorem nodup_answer : (answer q ws runner).candidates.Nodup := by
  unfold answer
  split
  case h_2 => exact nodup_candidates q []
  case h_1 =>
    simp only
    split
    case h_1 => exact nodup_candidates q _
    case h_2 => exact nodup_candidates q []
    case h_3 => exact List.nodup_nil

-- The same question about a word that goes on.
def Question.typing (q : Question) (more : String) : Question :=
  { q with typed := q.typed ++ more }

theorem candidates_typing (q : Question) (more : String) (computed : List String) :
    (q.typing more).candidates computed =
      (q.candidates computed).filter (Text.startsWith · (q.before ++ (q.typed ++ more))) := by
  simp only [Question.candidates, Question.typing, matching_append, List.filter_map]
  congr 1
  refine List.filter_congr fun x _ => ?_
  exact (Text.startsWith_append_append q.before x _).symm

-- What a function prints does not depend on the words that it is called with.
def HookRunner.IgnoresWords (run : HookRunner) : Prop :=
  ∀ fn ws ws', run fn ws = run fn ws'

-- Questions about the same parameter are answered from the same texts.
theorem candidates_answer (hr : ∀ run ∈ runner, run.IgnoresWords) (p : Option Param) :
    (∃ computed, ∀ q ws, q.source = p → (answer q ws runner).candidates = q.candidates computed) ∨
      ∀ q ws, q.source = p → (answer q ws runner).candidates = [] := by
  cases runner
  case none => exact .inl ⟨[], fun q ws _ => candidates_answer_none⟩
  case some run =>
    cases hfn : p.bind (nonempty? ·.choicesFn)
    case none =>
      refine .inl ⟨[], fun q ws hq => ?_⟩
      unfold answer
      simp [hq, hfn]
    case some fn =>
      obtain ⟨p, rfl, hfn⟩ := Option.bind_eq_some_iff.mp hfn
      have hrun : ∀ q ws, q.source = some p → (answer q ws (some run)).candidates = _ :=
        fun q ws hq => hr run rfl fn ws [] ▸ candidates_answer_hook hq hfn run
      cases hc : run fn [] <;> rw [hc] at hrun
      case lines ls  => exact .inl ⟨ls, hrun⟩
      case failed    => exact .inl ⟨[], hrun⟩
      case crashed   => exact .inr hrun

theorem answer_typing (hr : ∀ run ∈ runner, run.IgnoresWords) (q : Question) (more : String)
    (ws ws' : List String) : (answer (q.typing more) ws' runner).candidates =
      (answer q ws runner).candidates.filter (Text.startsWith · (q.before ++ (q.typed ++ more))) := by
  cases candidates_answer hr q.source
  case inl h =>
    have ⟨computed, h⟩ := h
    rw [h q ws rfl, h (q.typing more) ws' rfl, candidates_typing]
  case inr h => rw [h q ws rfl, h (q.typing more) ws' rfl, List.filter_nil]

theorem optionQuestion_append (h : '=' ∉ more.toList) (s : Cursor) (typed : String) (addHelp : Bool) :
    optionQuestion s (typed ++ more) addHelp = (optionQuestion s typed addHelp).map (·.typing more) := by
  unfold optionQuestion
  rw [Text.cut_more h]
  cases Text.cut '=' typed with
  | mk name value =>
    cases value
    case none => rfl
    case some value =>
      simp only
      cases s.command.findOption? name
      case none   => rfl
      case some p =>
        simp only
        split <;> rfl

-- To go on with a word changes no more of the question than the word.
theorem question_append (hn : typed ≠ "") (h : '=' ∉ more.toList) (t : Tree) (s : Cursor)
    (addHelp : Bool) :
    question t s (typed ++ more) addHelp =
      Option.map (·.typing more) <$> question t s typed addHelp := by
  have hdash : Text.startsWith (typed ++ more) "-" = Text.startsWith typed "-" := by
    have ⟨c, cs, hc⟩ := List.exists_cons_of_ne_nil (String.toList_eq_nil_iff.not.mpr hn)
    simp [Text.startsWith, hc, List.isPrefixOf]
  unfold question
  cases s.awaited
  case some a => rfl
  case none =>
    simp only [hdash]
    split
    case isTrue => rw [optionQuestion_append h]; rfl
    case isFalse =>
      split
      case isTrue =>
        cases t.childrenOf s.command <;> rfl
      case isFalse => rfl

-- What readline puts at the cursor for a candidate.
def visible (split : Bool) (candidate : String) : String :=
  if split then afterEquals candidate else candidate

theorem Start.visible_append {split : Bool} {start : String} (h : Start split start) (x : String) :
    visible split (start ++ x) = x := by
  cases h
  case whole   => simp [visible]
  case split h => exact afterEquals_append h x

theorem typed_of_ask (h : ask t l addHelp = .ok (some (q, ws))) : q.before ++ q.typed = l.typed :=
  have ⟨_, _, hq⟩ := question_of_ask h
  before_append_typed hq

theorem complete_of_ask {words : List String} {cursor : Int}
    (h : ask t (joinEquals words cursor) addHelp = .ok (some (q, ws))) :
    complete t words cursor runner addHelp = { answer q ws runner with
      candidates := (answer q ws runner).candidates.map (visible (joinEquals words cursor).split) } := by
  have hwhole : visible false = id := rfl
  rw [complete, h]
  cases (joinEquals words cursor).split
  case false => simp [hwhole]
  case true  => rfl

theorem complete_of_not_ask {words : List String} {cursor : Int}
    (h : ∀ q ws, ask t (joinEquals words cursor) addHelp ≠ .ok (some (q, ws))) :
    complete t words cursor runner addHelp = {} := by
  rw [complete]
  cases hq : ask t (joinEquals words cursor) addHelp
  case error => rfl
  case ok q =>
    cases q
    case none   => rfl
    case some q => exact absurd hq (h _ _)

theorem candidates_complete {words : List String} {cursor : Int}
    (h : ask t (joinEquals words cursor) addHelp = .ok (some (q, ws))) :
    (complete t words cursor runner addHelp).candidates =
      (answer q ws runner).candidates.map (visible (joinEquals words cursor).split) := by
  rw [complete_of_ask h]

theorem candidates_complete_of_none {words : List String} {cursor : Int}
    (h : ∀ q ws, ask t (joinEquals words cursor) addHelp ≠ .ok (some (q, ws))) :
    (complete t words cursor runner addHelp).candidates = [] := by
  rw [complete_of_not_ask h]

theorem fits_typedAt (t : Tree) (words : List String) (cursor : Nat) (runner : Option HookRunner)
    (addHelp : Bool) :
    let cs := (complete t words cursor runner addHelp).candidates
    cs.Nodup ∧ ∀ c ∈ cs, Text.startsWith c (typedAt words cursor) := by
  intro cs
  by_cases h : ∃ q ws, ask t (joinEquals words cursor) addHelp = .ok (some (q, ws))
  case neg =>
    have hcs : cs = [] := candidates_complete_of_none (by simpa using h)
    simp [hcs]
  case pos =>
    have ⟨q, ws, hq⟩ := h
    have ⟨start, hs, htyped⟩ := exists_start words cursor
    have hstart : ∀ c ∈ (answer q ws runner).candidates, ∃ x, c = start ++ (typedAt words cursor ++ x) := by
      intro c hc
      have hc := Text.startsWith_trans htyped (typed_of_ask hq ▸ startsWith_of_mem_answer hc)
      simpa [String.append_assoc] using Text.startsWith_iff_exists.mp hc
    simp only [cs, candidates_complete hq]
    constructor
    case left =>
      refine nodup_answer.map_on fun c hc d hd he => ?_
      obtain ⟨x, rfl⟩ := hstart c hc
      obtain ⟨y, rfl⟩ := hstart d hd
      rw [hs.visible_append, hs.visible_append] at he
      rw [he]
    case right =>
      intro c hc
      obtain ⟨d, hd, rfl⟩ := List.mem_map.mp hc
      obtain ⟨x, rfl⟩ := hstart d hd
      rw [hs.visible_append]
      exact Text.startsWith_append _ _

theorem ask_concat (front : List String) (split : Bool) :
    ask t ⟨front ++ [typed], front.length, split⟩ addHelp =
      if front = [] then .ok none else do
        let q ← question t (← replay t (front.drop 1)) typed addHelp
        return q.map (·, front.drop 1 ++ [typed]) :=
  ask_eq

-- To go on with the last word asks the same question about more text.
theorem ask_typing (hn : typed ≠ "") (h : '=' ∉ more.toList) (t : Tree) (front : List String)
    (split addHelp : Bool) :
    (∃ q ws ws', ask t ⟨front ++ [typed], front.length, split⟩ addHelp = .ok (some (q, ws)) ∧
      ask t ⟨front ++ [typed ++ more], front.length, split⟩ addHelp = .ok (some (q.typing more, ws'))) ∨
    ∀ q ws, ask t ⟨front ++ [typed], front.length, split⟩ addHelp ≠ .ok (some (q, ws)) ∧
      ask t ⟨front ++ [typed ++ more], front.length, split⟩ addHelp ≠ .ok (some (q, ws)) := by
  rw [ask_concat, ask_concat]
  by_cases hf : front = []
  case pos => exact .inr (by simp [hf])
  case neg =>
    rw [if_neg hf, if_neg hf]
    cases replay t (front.drop 1)
    case error => exact .inr fun _ _ => ⟨nofun, nofun⟩
    case ok s =>
      rw [ok_bind, ok_bind, question_append hn h]
      cases question t s typed addHelp
      case error => exact .inr fun _ _ => ⟨nofun, nofun⟩
      case ok q =>
        cases q
        case none   => exact .inr fun _ _ => ⟨nofun, nofun⟩
        case some q => exact .inl ⟨q, _, _, rfl, rfl⟩

theorem candidates_append {p : String} (hr : ∀ run ∈ runner, run.IgnoresWords) (hn : p ≠ "")
    (hp : '=' ∉ p.toList) (hm : '=' ∉ more.toList) (t : Tree) (words : List String) (addHelp : Bool) :
    (complete t (words ++ [p ++ more]) words.length runner addHelp).candidates =
      (complete t (words ++ [p]) words.length runner addHelp).candidates.filter
        (Text.startsWith · (p ++ more)) := by
  have ⟨front, start, split, hs, hl⟩ := exists_line_concat words
  have hline := hl p (ne_equals hp)
  have hline' := hl (p ++ more) (ne_equals (by simp [hp, hm]))
  rw [← String.append_assoc] at hline'
  have hask := ask_typing (show start ++ p ≠ "" by simp [hn]) hm t front split addHelp
  rw [← hline, ← hline'] at hask
  cases hask
  case inl hask =>
    have ⟨q, ws, ws', hq, hq'⟩ := hask
    have htyped : q.before ++ (q.typed ++ more) = start ++ (p ++ more) := by
      rw [← String.append_assoc, typed_of_ask hq, hline, ← String.append_assoc]
      simp [Line.typed]
    have hstart : ∀ c ∈ (answer q ws runner).candidates, ∃ x, c = start ++ x := by
      intro c hc
      have hc := typed_of_ask hq ▸ startsWith_of_mem_answer hc
      have ⟨x, hx⟩ := Text.startsWith_iff_exists.mp hc
      exact ⟨p ++ x, by simpa [hline, Line.typed, String.append_assoc] using hx⟩
    rw [candidates_complete hq, candidates_complete hq', answer_typing hr q more ws ws', htyped, hline,
      hline', List.filter_map]
    congr 1
    refine List.filter_congr fun c hc => ?_
    obtain ⟨x, rfl⟩ := hstart c hc
    rw [Function.comp_apply, hs.visible_append, Text.startsWith_append_append]
  case inr hask =>
    rw [candidates_complete_of_none fun q ws => (hask q ws).1,
      candidates_complete_of_none fun q ws => (hask q ws).2, List.filter_nil]

-- Whatever stands on the line, readline can use the candidates: none comes twice, all start with
-- the text that the user sees, and more text narrows them down.
theorem candidates_typed (t : Tree) (runner : Option HookRunner) (addHelp : Bool) :
    (∀ (words : List String) (cursor : Nat),
      let cs := (complete t words cursor runner addHelp).candidates
      cs.Nodup ∧ ∀ c ∈ cs, Text.startsWith c (typedAt words cursor)) ∧
    ((∀ run ∈ runner, run.IgnoresWords) →
      ∀ words p more, p ≠ "" → '=' ∉ p.toList → '=' ∉ more.toList →
        (complete t (words ++ [p ++ more]) words.length runner addHelp).candidates =
          (complete t (words ++ [p]) words.length runner addHelp).candidates.filter
            (Text.startsWith · (p ++ more))) :=
  ⟨fun words cursor => fits_typedAt t words cursor runner addHelp,
    fun hr words _ _ hn hp hm => candidates_append hr hn hp hm t words addHelp⟩

theorem candidates_typed_value :
    let env : Param := {
      name := "env"
      kind := .option
      long := some "--env"
      choices := ["dev", "prod"]
      choicesFn := some "envs" }
    let t : Tree := { nodes := [{ index := 0, params := [env] }] }
    let run : HookRunner := fun _ _ => .lines ["preview", "prod"]
    let cs := (complete t (["deploy", "--env", "="] ++ ["p"]) 3 (some run) true).candidates
    let cs' := (complete t (["deploy", "--env", "="] ++ ["p" ++ "re"]) 3 (some run) true).candidates
    (∀ run' ∈ some run, run'.IgnoresWords) ∧ "p" ≠ "" ∧ '=' ∉ "p".toList ∧ '=' ∉ "re".toList ∧
      cs' = cs.filter (Text.startsWith · ("p" ++ "re")) ∧ cs = ["prod", "preview"] := by
  intro env t run cs cs'
  have hr : ∀ run' ∈ some run, run'.IgnoresWords := by
    rintro _ ⟨⟩ fn ws ws'
    rfl
  have ⟨_, hmore⟩ := candidates_typed t (some run) true
  exact ⟨hr, by decide, by decide, by decide,
    hmore hr ["deploy", "--env", "="] "p" "re" (by decide) (by decide) (by decide), by decide +kernel⟩

end Candidates

end Completion

end ShellArgs
