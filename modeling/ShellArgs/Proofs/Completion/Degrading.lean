import ShellArgs.Proofs.Completion.Typing

-- What becomes of the candidates when a function of the script fails that computes some of them.
-- What is known without the function is not lost, unless the call breaks off completion itself.

namespace ShellArgs.Completion

open Outcome

-- The parameter whose values are looked for at the cursor: an option that awaits them, one that has
-- its form and an equals sign in the word at the cursor, or the next positional.
inductive Sought (s : Cursor) (typed : String) : Param → Prop
  | awaited (ha : s.awaited = some a) : Sought s typed a.option
  | attached (ho : s.Open) (hd : Text.startsWith typed "-")
      (hc : Text.cut '=' typed = (form, some value)) (hf : s.command.findOption? form = some p)
      (hk : p.isFlag = false) : Sought s typed p
  | positional (ha : s.awaited = none) (h : s.optionsEnded ∨ Text.startsWith typed "-" = false)
      (hp : positionalAt s.command s.positionals = some p) : Sought s typed p

-- A function is called for the values of a parameter, with all words up to the cursor.
structure Consulted (t : Tree) (l : Line) (p : Param) (call : HookCall) : Prop where
  sought : ∃ s, replay t l.before = .ok s ∧ Sought s l.typed p
  fn     : nonempty? p.choicesFn = some call.fn
  words  : call.words = l.before ++ [l.typed]

variable {t : Tree} {s : Cursor} {l : Line} {q : Question} {p : Param} {ws : List String}
  {typed : String} {addHelp : Bool}

theorem mem_positionals_of_positionalAt {c : Command} {n : Nat} (h : positionalAt c n = some p) :
    p ∈ c.positionals := by
  unfold positionalAt at h
  split at h
  case h_1 hn =>
    cases h
    exact List.mem_of_getElem? hn
  case h_2 => exact List.mem_of_getLast? (Option.filter_eq_some_iff.mp h).1

theorem Sought.mem_params (h : Sought s typed p) (hs : s.Coherent) : p ∈ s.command.params := by
  cases h
  case awaited a ha  => exact List.mem_of_mem_filter (hs.option a ha).1
  case attached hf _ => exact List.mem_of_mem_filter (List.mem_of_find?_eq_some hf)
  case positional hp => exact List.mem_of_mem_filter (mem_positionals_of_positionalAt hp)

theorem sought_of_question (h : question t s typed addHelp = .ok (some q)) (hp : q.source = some p) :
    Sought s typed p := by
  cases asks_of_question h
  case values ha =>
    cases hp
    exact .awaited ha
  case attached ho hd hc hf hk =>
    cases hp
    exact .attached ho hd hc hf hk
  case names      => cases hp
  case word ha hd => exact .positional ha hd hp

theorem words_of_ask (h : ask t l addHelp = .ok (some (q, ws))) : ws = l.before ++ [l.typed] := by
  unfold ask at h
  split at h
  case isTrue => cases h
  case isFalse =>
    have ⟨_, _, h⟩ := bind_eq_ok_iff.mp h
    have ⟨q', _, h⟩ := bind_eq_ok_iff.mp h
    cases q'
    case none   => cases h
    case some q => cases h; rfl

theorem consulted_of_ask {fn : String} (h : ask t l addHelp = .ok (some (q, ws)))
    (hp : q.source = some p) (hfn : nonempty? p.choicesFn = some fn) : Consulted t l p ⟨fn, ws⟩ := by
  have ⟨s, hs, hq⟩ := question_of_ask h
  exact ⟨⟨s, hs, sought_of_question hq hp⟩, hfn, words_of_ask h⟩

theorem exists_complete_none (t : Tree) (words : List String) (cursor : Int) (addHelp : Bool) :
    ∃ cs, complete t words cursor none addHelp = { candidates := cs } := by
  by_cases hask : ∃ q ws, ask t (joinEquals words cursor) addHelp = .ok (some (q, ws))
  case neg => exact ⟨[], complete_of_not_ask (by simpa using hask)⟩
  case pos =>
    obtain ⟨q, ws, hask⟩ := hask
    rw [complete_of_ask hask, answer_none]
    exact ⟨_, rfl⟩

-- Who calls the functions does not matter, unless values are asked for that a function computes.
theorem complete_eq_none_or (t : Tree) (words : List String) (cursor : Int) (addHelp : Bool) :
    (∀ runner, complete t words cursor runner addHelp = complete t words cursor none addHelp) ∨
      ∃ q ws p fn, ask t (joinEquals words cursor) addHelp = .ok (some (q, ws)) ∧
        q.source = some p ∧ nonempty? p.choicesFn = some fn := by
  by_cases hask : ∃ q ws, ask t (joinEquals words cursor) addHelp = .ok (some (q, ws))
  case neg =>
    have h : ∀ runner, complete t words cursor runner addHelp = {} :=
      fun _ => complete_of_not_ask (by simpa using hask)
    exact .inl fun runner => (h runner).trans (h none).symm
  case pos =>
    obtain ⟨q, ws, hask⟩ := hask
    cases hfn : q.source.bind (nonempty? ·.choicesFn)
    case none =>
      refine .inl fun runner => ?_
      rw [complete_of_ask hask, complete_of_ask hask, answer_of_no_hook hfn, answer_none]
    case some fn =>
      obtain ⟨p, hp, hfn⟩ := Option.bind_eq_some_iff.mp hfn
      exact .inr ⟨q, ws, p, fn, hask, hp, hfn⟩

-- No more than one function is called, and for the parameter that is looked for.
theorem calls_complete (t : Tree) (words : List String) (cursor : Int) (runner : Option HookRunner)
    (addHelp : Bool) : (complete t words cursor runner addHelp).calls = [] ∨
      ∃ p call, Consulted t (joinEquals words cursor) p call ∧
        (complete t words cursor runner addHelp).calls = [call] := by
  have ⟨cs, hnone⟩ := exists_complete_none t words cursor addHelp
  cases complete_eq_none_or t words cursor addHelp
  case inl h =>
    rw [h, hnone]
    exact .inl rfl
  case inr h =>
    obtain ⟨q, ws, p, fn, hask, hp, hfn⟩ := h
    cases runner
    case none =>
      rw [hnone]
      exact .inl rfl
    case some run =>
      rw [complete_of_ask hask, answer_hook hp hfn]
      refine .inr ⟨p, ⟨fn, ws⟩, consulted_of_ask hask hp hfn, ?_⟩
      cases run fn ws <;> rfl

theorem matching_prefix_append (texts more : List String) (typed : String) :
    matching texts typed <+: matching (texts ++ more) typed := by
  rw [matching, matching, List.filter_append, List.eraseDups_append]
  exact List.prefix_append _ _

-- What a function computes comes last.
theorem prefix_candidates (q : Question) (computed : List String) :
    q.candidates [] <+: q.candidates computed := by
  refine List.IsPrefix.map _ ?_
  cases q.source
  case none   => exact List.prefix_refl _
  case some p =>
    simpa [← List.append_assoc] using matching_prefix_append (q.known ++ p.choices) computed q.typed

-- There is a result whatever a function does that computes candidates. If it is called, then for the
-- parameter that is looked for, and no more than once. If it fails, the candidates are those that
-- there are without it, and a warning tells where it is declared. A crash leaves nothing. What it
-- prints comes behind all that is known.
theorem complete_degrades (t : Tree) (words : List String) (cursor : Int) (addHelp : Bool) :
    let plain := complete t words cursor none addHelp
    plain.diagnostics = [] ∧ plain.calls = [] ∧
    ((∀ runner, complete t words cursor runner addHelp = plain) ∨
      ∃ p call, Consulted t (joinEquals words cursor) p call ∧ ∀ run : HookRunner,
        let r := complete t words cursor (some run) addHelp
        r.calls = [call] ∧
        match run call.fn call.words with
        | .lines _       => r.diagnostics = [] ∧ plain.candidates <+: r.candidates
        | .failed reason => r.candidates = plain.candidates ∧
            r.diagnostics = [{
              line := p.line
              message := reason
              severity := .warning
              stage := .completion
              column := none }]
        | .crashed       => r.candidates = [] ∧ r.diagnostics = []) := by
  intro plain
  have ⟨cs, hcs⟩ := exists_complete_none t words cursor addHelp
  refine ⟨congrArg Result.diagnostics hcs, congrArg Result.calls hcs,
    (complete_eq_none_or t words cursor addHelp).imp_right ?_⟩
  rintro ⟨q, ws, p, fn, hask, hp, hfn⟩
  have hcomplete : ∀ runner, complete t words cursor runner addHelp = { answer q ws runner with
      candidates := (answer q ws runner).candidates.map (visible (joinEquals words cursor).split) } :=
    fun _ => complete_of_ask hask
  have hplain : plain = _ := hcomplete none
  rw [answer_none] at hplain
  refine ⟨p, ⟨fn, ws⟩, consulted_of_ask hask hp hfn, fun run => ?_⟩
  simp only [hplain, hcomplete, answer_hook hp hfn ws run]
  cases run fn ws
  case lines ls => exact ⟨rfl, rfl, (prefix_candidates q ls).map _⟩
  case failed   => exact ⟨rfl, rfl, rfl⟩
  case crashed  => exact ⟨rfl, rfl, rfl⟩

-- A subcommand can be named even if the values of the positional in its place are not known.
example :
    let target : Param :=
      { name := "target", kind := .positional, choicesFn := some "targets", line := 2 }
    let root : Command := { index := 0, params := [target], children := [("deploy", 1)] }
    let deploy : Command := { index := 1, name := "deploy", parent := some 0 }
    complete { nodes := [root, deploy] } ["app", "d"] 1 (some fun _ _ => .failed "timed out") false =
      { candidates := ["deploy"]
        diagnostics := [⟨2, "timed out", .warning, .completion, none⟩]
        calls := [⟨"targets", ["d"]⟩] } := by
  decide

end ShellArgs.Completion
