import ShellArgs.Proofs.Completion.Blocks
import ShellArgs.Proofs.Completion.Candidates
import ShellArgs.Proofs.Completion.Settling
import ShellArgs.Proofs.Forms

-- What words behind the cursor change. They count only for the text that they add to the word at
-- the cursor, but for that they do count.

namespace ShellArgs.Completion

open Outcome

-- The line around a place, as far as it does not depend on what comes later.
structure Stands (words : List String) (cursor : Nat) (front : List String) (typed : String)
    (split : Bool) : Prop where
  line : ∀ later, ∃ rest, joinEquals (words.take (cursor + 1) ++ later) cursor =
    ⟨front ++ (typed ++ joined words cursor later) :: rest, front.length, split⟩
  opens : isOpen words cursor → opensBlock typed ∧ split = false
  front : isOpen words cursor → 1 ≤ cursor → front ≠ []

section Line

variable {words later : List String} {cursor : Nat}

theorem exists_stands (h : cursor < words.length) :
    ∃ front typed split, Stands words cursor front typed split := by
  have ⟨front, inside, hc⟩ := exists_cut words[cursor] (words.take cursor)
  have htake : words.take (cursor + 1) = words.take cursor ++ [words[cursor]] :=
    (List.take_append_getElem h).symm
  have hlen : (words.take cursor).length = cursor := List.length_take_of_le (Nat.le_of_lt h)
  have hline := hc.joinEquals_eq
  rw [hlen] at hline
  have hopen : isOpen words cursor = opensAfter words[cursor] (words.take cursor).reverse := by
    rw [isOpen, List.getElem?_eq_getElem h, Option.any_some]
  refine ⟨front.map String.join, String.join (inside ++ [words[cursor]]), decide (inside ≠ []), ?_⟩
  constructor
  case line =>
    intro later
    have ⟨rest, hj⟩ := hline later
    refine ⟨rest, ?_⟩
    rw [htake, List.append_assoc, List.singleton_append, hj, List.length_map, joined, hopen]
  case opens =>
    intro ho
    rw [hopen] at ho
    simpa [hc.opens ho] using opensBlock_of_opensAfter ho
  case front =>
    intro ho hpos hn
    have hw := hc.words
    rw [hc.opens (hopen ▸ ho), List.map_eq_nil_iff.mp hn] at hw
    rw [← hw, List.flatten_nil, List.append_nil, List.length_nil] at hlen
    omega

theorem joined_eq_of_not_isOpen (h : ¬ isOpen words cursor) : joined words cursor later = "" := by
  rw [joined, if_neg h]

theorem joined_eq_or :
    joined words cursor later = "" ∨ ∃ v, joined words cursor later = "=" ++ v := by
  unfold joined
  split
  case isTrue  => exact join_attached later
  case isFalse => exact .inl rfl

end Line

-- A tree with one command, which takes any number of the same texts as values of an option and as
-- positionals.
def offering (form : String) (texts : List String) : Command where
  index := 0
  params := [
    { name := "option", kind := .option, long := some form, multiple := true, choices := texts },
    { name := "values", kind := .positional, multiple := true, choices := texts }]

section Offering

variable {form x : String} {texts : List String} {s : Cursor}

-- There is no other command to go to.
theorem step_offering (hc : s.command = offering form texts) (w : String) :
    ∃ s', Cursor.step ⟨[offering form texts]⟩ s w = .ok s' ∧ s'.command = offering form texts := by
  have hf : Tree.findChild ⟨[offering form texts]⟩ s.command w = .ok none := by
    rw [hc]
    rfl
  obtain ⟨s', m⟩ := Cursor.exists_moves ⟨_, hf⟩
  refine ⟨s', Cursor.step_eq_ok_iff.mpr m, ?_⟩
  cases m
  case dashed     => rw [Cursor.command_dashed, hc]
  case called h   => cases hf.symm.trans h
  case value      => exact hc
  case ended      => exact hc
  case collected  => exact hc

theorem replay_offering (form : String) (texts ws : List String) :
    ∃ s, replay ⟨[offering form texts]⟩ ws = .ok s ∧ s.command = offering form texts :=
  foldlM_ok (fun _ (s : Cursor) => s.command = offering form texts) rfl
    fun _ w _ hc => step_offering hc w

theorem option_of_awaited (hc : s.command = offering form texts) (ho : s.Coherent) {a : Awaited}
    (ha : s.awaited = some a) : a.option.choices = texts := by
  have h := (ho.option a ha).1
  rw [hc] at h
  rw [List.mem_singleton.mp h]

theorem findOption?_offering (texts : List String) (hf : form ≠ "") :
    ∃ p, (offering form texts).findOption? form = some p ∧ p.isFlag = false ∧ p.choices = texts := by
  refine ⟨_, List.find?_cons_of_pos ?_, rfl, rfl⟩
  simp [Param.forms, nonempty?, hf]

theorem mem_optionNames_offering (hc : s.command = offering form texts) (hf : form ≠ "") :
    form ∈ optionNames s false := by
  simp [optionNames, hc, offering, Command.options, Param.isPositional, nonempty?, hf]

theorem positionalAt_offering (form : String) (texts : List String) (n : Nat) :
    ∃ p, positionalAt (offering form texts) n = some p ∧ p.choices = texts := by
  cases n
  case zero   => exact ⟨_, rfl, rfl⟩
  case succ n => exact ⟨_, rfl, rfl⟩

theorem mem_candidates_typed {q : Question}
    (h : q.typed ∈ q.known ∨ ∃ p, q.source = some p ∧ q.typed ∈ p.choices) :
    q.before ++ q.typed ∈ q.candidates [] :=
  mem_candidates [] (Text.startsWith_self _) h

-- Among the options there are the form alone and the form with each of its values.
theorem exists_optionQuestion_offering (hc : s.command = offering form texts) (hf : form ≠ "")
    (hequals : '=' ∉ form.toList) (hx : x = "" ∨ ∃ v ∈ texts, x = "=" ++ v) :
    ∃ q, optionQuestion s (form ++ x) false = some q ∧ form ++ x ∈ q.candidates [] := by
  rcases hx with rfl | ⟨v, hv, rfl⟩
  case inl =>
    let q : Question := ⟨optionNames s false, none, form, ""⟩
    have hmem := mem_candidates_typed (q := q) (.inl (mem_optionNames_offering hc hf))
    refine ⟨q, ?_, by simpa [q] using hmem⟩
    simp [optionQuestion, Text.cut_of_not_mem hequals, q]
  case inr =>
    have ⟨p, hp, hflag, hch⟩ := findOption?_offering texts hf
    let q : Question := ⟨[], some p, v, form ++ "="⟩
    have hmem := mem_candidates_typed (q := q) (.inr ⟨_, rfl, hch ▸ hv⟩)
    have hcut : Text.cut '=' (form ++ ("=" ++ v)) = (form, some v) := by
      rw [Text.cut_of_eq_append hequals (b := v.toList) (by simp)]
      simp
    refine ⟨q, ?_, by simpa [q, String.append_assoc] using hmem⟩
    simp [optionQuestion, hcut, hc, hp, hflag, q]

-- Every text that the command offers is a candidate wherever the cursor stands.
theorem mem_candidates_offering (hc : s.command = offering form texts) (ho : s.Coherent)
    (hf : opensBlock form) (hm : form ++ x ∈ texts) (hx : x = "" ∨ ∃ v ∈ texts, x = "=" ++ v) :
    ∃ q, question ⟨[offering form texts]⟩ s (form ++ x) false = .ok (some q) ∧
      form ++ x ∈ q.candidates [] := by
  simp only [opensBlock, Bool.and_eq_true, Bool.not_eq_true', List.contains_eq_mem,
    decide_eq_false_iff_not] at hf
  have ⟨hdash, hequals⟩ := hf
  have hne : form ≠ "" := by
    rintro rfl
    cases hdash
  have hstart : Text.startsWith (form ++ x) "-" :=
    Text.startsWith_trans hdash (Text.startsWith_append form x)
  cases ha : s.awaited
  case some a =>
    let q : Question := ⟨[], some a.option, form ++ x, ""⟩
    have hmem := mem_candidates_typed (q := q) (.inr ⟨_, rfl, option_of_awaited hc ho ha ▸ hm⟩)
    exact ⟨q, by simp [question, ha, q], by simpa [q] using hmem⟩
  case none =>
    cases he : s.optionsEnded
    case true =>
      have ⟨p, hp, hch⟩ := positionalAt_offering form texts s.positionals
      let q : Question := ⟨[], some p, form ++ x, ""⟩
      have hmem := mem_candidates_typed (q := q) (.inr ⟨_, rfl, hch ▸ hm⟩)
      exact ⟨q, by simp [question, ha, he, hc, hp, q], by simpa [q] using hmem⟩
    case false =>
      have ⟨q, hq, hmem⟩ := exists_optionQuestion_offering hc hne hequals hx
      exact ⟨q, by simp [question, ha, he, hstart, hq], hmem⟩

end Offering

section Line

variable {words later later' front : List String} {typed : String} {cursor : Nat}

theorem ask_eq {t : Tree} {rest : List String} {split addHelp : Bool} :
    ask t ⟨front ++ typed :: rest, front.length, split⟩ addHelp =
      if front = [] then .ok none else do
        let q ← question t (← replay t (front.drop 1)) typed addHelp
        return q.map (·, front.drop 1 ++ [typed]) := by
  by_cases hf : front = []
  case pos => simp [ask, hf]
  case neg =>
    have hcursor : ¬ ((front.length : Int) < 1 ∨
        ((front ++ typed :: rest).length : Int) < front.length) := by
      have := List.length_pos_iff.mpr hf
      rw [List.length_append]
      omega
    simp only [ask, Bool.or_eq_true, decide_eq_true_eq]
    rw [if_neg hcursor, if_neg hf]
    simp

theorem Stands.complete_eq {split : Bool} (h : Stands words cursor front typed split)
    (he : joined words cursor later = joined words cursor later') (t : Tree)
    (runner : Option HookRunner) (addHelp : Bool) :
    complete t (words.take (cursor + 1) ++ later) cursor runner addHelp =
      complete t (words.take (cursor + 1) ++ later') cursor runner addHelp := by
  have ⟨_, hl⟩ := h.line later
  have ⟨_, hl'⟩ := h.line later'
  rw [complete, complete, hl, hl', he, ask_eq, ask_eq]

-- In a tree that offers it, the word at the cursor with what is added to it is a candidate, and
-- nothing that does not start with it is.
theorem Stands.candidates_offering (h : Stands words cursor front typed false)
    (later texts : List String) (hf : front ≠ []) (ht : opensBlock typed)
    (hm : typed ++ joined words cursor later ∈ texts)
    (hv : ∀ v, joined words cursor later = "=" ++ v → v ∈ texts) :
    let cs := (complete ⟨[offering typed texts]⟩ (words.take (cursor + 1) ++ later) cursor none
      false).candidates
    typed ++ joined words cursor later ∈ cs ∧
      ∀ x ∈ cs, Text.startsWith x (typed ++ joined words cursor later) := by
  intro cs
  have ⟨rest, hl⟩ := h.line later
  have ⟨s, hs, hc⟩ := replay_offering typed texts (front.drop 1)
  have ⟨q, hq, hmem⟩ := mem_candidates_offering hc (coherent_replay hs) ht hm
    (joined_eq_or.imp_right fun ⟨v, hj⟩ => ⟨v, hv v hj, hj⟩)
  have hcs : cs = q.candidates [] := by
    simp only [cs]
    rw [complete, hl, ask_eq, if_neg hf, hs, ok_bind, hq, ok_bind]
    exact candidates_answer_none
  refine ⟨hcs ▸ hmem, fun x hx => ?_⟩
  have hx : x ∈ (answer q [] none).candidates := candidates_answer_none ▸ hcs ▸ hx
  rw [← before_append_typed hq]
  exact startsWith_of_mem_answer hx

-- Later words count exactly for the text that they add to the word at the cursor.
theorem complete_append (words later later' : List String) (hpos : 1 ≤ cursor)
    (h : cursor < words.length) :
    (joined words cursor later = joined words cursor later' → ∀ t runner addHelp,
      complete t (words.take (cursor + 1) ++ later) cursor runner addHelp =
        complete t (words.take (cursor + 1) ++ later') cursor runner addHelp) ∧
    ((∀ t runner addHelp,
      (complete t (words.take (cursor + 1) ++ later) cursor runner addHelp).candidates =
        (complete t (words.take (cursor + 1) ++ later') cursor runner addHelp).candidates) →
      joined words cursor later = joined words cursor later') := by
  have ⟨front, typed, split, st⟩ := exists_stands h
  refine ⟨fun he => st.complete_eq he, fun hall => ?_⟩
  by_cases ho : isOpen words cursor
  case neg => rw [joined_eq_of_not_isOpen ho, joined_eq_of_not_isOpen ho]
  case pos =>
    obtain ⟨ht, rfl⟩ := st.opens ho
    have hf := st.front ho hpos
    let value (j : String) : String := String.ofList (j.toList.drop 1)
    let texts := [typed ++ joined words cursor later, typed ++ joined words cursor later',
      value (joined words cursor later), value (joined words cursor later')]
    have hvalue : ∀ {j v : String}, j = "=" ++ v → value j = v := fun hj => by simp [value, hj]
    have ⟨hm, hs⟩ := st.candidates_offering later texts hf ht (by simp [texts])
      fun v hv => by simp [texts, hvalue hv]
    have ⟨hm', hs'⟩ := st.candidates_offering later' texts hf ht (by simp [texts])
      fun v hv => by simp [texts, hvalue hv]
    have hcs := hall ⟨[offering typed texts]⟩ none false
    have hle := Text.startsWith_iff.mp (hs' _ (hcs ▸ hm))
    have hle' := Text.startsWith_iff.mp (hs _ (hcs ▸ hm'))
    have heq := hle.eq_of_length_le hle'.length_le
    simpa [String.toList_inj] using heq.symm

theorem complete_append_plain :
    let words := ["deploy", "--env"]
    (∀ t runner addHelp, complete t ["deploy", "--env", "x"] 1 runner addHelp =
      complete t words 1 runner addHelp) ∧
    ¬ ∀ t runner addHelp, (complete t ["deploy", "--env", "=", "d"] 1 runner addHelp).candidates =
      (complete t words 1 runner addHelp).candidates := by
  intro words
  have hpos : 1 ≤ 1 := by decide
  have h : 1 < words.length := by decide
  have ⟨hsame, _⟩ := complete_append words ["x"] [] hpos h
  have ⟨_, hother⟩ := complete_append words ["=", "d"] [] hpos h
  exact ⟨hsame (by decide +kernel), mt hother (by decide +kernel)⟩

example :
    let env : Param :=
      { name := "env", kind := .option, long := some "--env", choices := ["dev", "prod"] }
    let t : Tree := { nodes := [{ index := 0, params := [env] }] }
    (complete t ["deploy", "--env"] 1 none false).candidates = ["--env"] ∧
      (complete t ["deploy", "--env", "=", "d"] 1 none false).candidates = ["--env=dev"] := by
  decide +kernel

end Line

end ShellArgs.Completion
