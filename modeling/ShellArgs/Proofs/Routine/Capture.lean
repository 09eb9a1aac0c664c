import ShellArgs.Compilation
import ShellArgs.Proofs.Outcome

-- Variables of parameters that are also used for something else. A routine unsets the
-- variables of its parameters first, and what they were used for is lost.

namespace ShellArgs

theorem Shell.nearestName_eq_iff {s t : String} (ht : t.toList.all isNameChar)
    (hu : '_' ∉ t.toList) : nearestName s = t ↔ s = t := by
  have hkept {cs : List Char} (h : ∀ c ∈ cs, isNameChar c) :
      (cs.map fun c => if isNameChar c then c else '_') = cs := by
    rw [List.map_congr_left fun c hc => if_pos (h c hc), List.map_id']
  constructor
  case mp =>
    intro h
    have hall (c : Char) (hc : c ∈ s.toList) : isNameChar c := by
      refine Decidable.byContradiction fun hn => hu ?_
      rw [← h, nearestName, String.toList_ofList]
      exact List.mem_map.mpr ⟨c, hc, if_neg hn⟩
    rw [← h, nearestName, hkept hall, String.ofList_toList]
  case mpr =>
    rintro rfl
    rw [nearestName, hkept (List.all_eq_true.mp ht), String.ofList_toList]

namespace Routine

open Shell

variable {c : Command} {o : Options}

-- The variables that the routine of a command unsets.
def unsetVariables (c : Command) (o : Options) : List String :=
  c.params.map (·.varName o.stem)

-- The environment variables that the parameters of a command fall back on.
def environmentVariables (c : Command) : List String :=
  c.params.filterMap (nonempty? ·.envVar)

theorem infix_of_mem {α β : Type} {f : α → List β} {a : α} {as : List α} (h : a ∈ as) :
    f a <:+: as.flatMap f := by
  have ⟨front, back, he⟩ := List.append_of_mem h
  exact ⟨front.flatMap f, back.flatMap f, by simp [he]⟩

theorem fallback_infix_settle (p : Param) (stem : String) : fallback p stem <:+: settle p stem :=
  ⟨[], requiredCheck p stem ++ valueChecks p stem, by simp [settle]⟩

-- Fallbacks come after the line that unsets the variables of parameters.
theorem fallback_after_unset (h : c.params ≠ []) (children : List Command) (callPath : String) :
    ∃ front back, parseBody c children o callPath =
        front ++ line ("unset " ++ " ".intercalate (unsetVariables c o)) :: back ∧
      ∀ p ∈ c.params, fallback p o.stem <:+: back ∨ indent (fallback p o.stem) <:+: back := by
  let block := positionalBlock c o.stem !children.isEmpty
  let branch := if !children.isEmpty && !block.isEmpty then
    conditional ("[ -z " ++ doubleQuoted ("$" ++ nextVar) ++ " ]") block else block
  let loop := assignLine errorsVar (.array []) :: wordLoop c children o
  have hne : c.params.isEmpty = false := by simpa using h
  have ⟨rest, hrest⟩ : ∃ rest, parseBody c children o callPath =
      [line ("local " ++ valueVar ++ "=\"\" " ++ nextVar ++ "=\"\""),
        line ("local " ++ wordsVar ++ "=()")] ++
      line ("unset " ++ " ".intercalate (unsetVariables c o)) ::
        (loop ++ c.options.flatMap (settle · o.stem) ++ branch ++ rest) := by
    simp only [parseBody, hne, Bool.false_eq_true, if_false, List.append_assoc, loop,
      List.cons_append, List.nil_append]
    exact ⟨_, rfl⟩
  refine ⟨_, _, hrest, fun p hp => ?_⟩
  have hfallback := fallback_infix_settle p o.stem
  cases hk : p.isPositional
  case false =>
    have ho : p ∈ c.options := List.mem_filter.mpr ⟨hp, by simp [hk]⟩
    refine .inl ((hfallback.trans (infix_of_mem (f := (settle · o.stem)) ho)).trans ?_)
    exact ⟨loop, branch ++ rest, by simp⟩
  case true =>
    have ho : p ∈ c.positionals := List.mem_filter.mpr ⟨hp, hk⟩
    have hblock : fallback p o.stem <:+: block :=
      (hfallback.trans (infix_of_mem (f := (settle · o.stem)) ho)).trans
        (List.suffix_append _ _).isInfix
    have hbranch : branch <:+: loop ++ c.options.flatMap (settle · o.stem) ++ branch ++ rest :=
      ⟨loop ++ c.options.flatMap (settle · o.stem), rest, by simp⟩
    by_cases hb : !children.isEmpty && !block.isEmpty
    case pos =>
      refine .inr (List.IsInfix.trans ?_ hbranch)
      obtain ⟨front, back, he⟩ := hblock
      have hbranch :
          branch = conditional ("[ -z " ++ doubleQuoted ("$" ++ nextVar) ++ " ]") block :=
        if_pos hb
      rw [hbranch, ← he]
      exact ⟨line _ :: indent front, indent back ++ [line "fi"], by simp [conditional]; rfl⟩
    case neg => exact .inl (hblock.trans ((if_neg hb : branch = block) ▸ hbranch))

-- The parts of a name that is cut at an underscore.
theorem eq_of_varName {p : Param} {stem rest : String} (hs : isName stem.toList)
    (hr : '_' ∉ rest.toList) (h : p.varName stem = "_argsh_" ++ rest) :
    stem = "_argsh" ∧ nearestName p.name = rest := by
  have hlist : stem.toList ++ '_' :: (nearestName p.name).toList =
      "_argsh".toList ++ '_' :: rest.toList := by
    have := congrArg String.toList h
    simpa [Param.varName] using this
  have hne : stem.toList ≠ [] := by
    intro hn
    rw [hn] at hs
    cases hs
  have htail : '_' ∉ "_argsh".toList.tail := by decide
  suffices stem.toList = "_argsh".toList from
    ⟨String.toList_inj.mp this, String.toList_inj.mp (by simpa [this] using hlist)⟩
  rcases List.append_eq_append_iff.mp hlist with ⟨mid, hm, hrest⟩ | ⟨mid, hm, hrest⟩
  all_goals cases mid
  case inl.nil => simpa using hm.symm
  case inr.nil => simpa using hm
  case inl.cons a mid =>
    obtain ⟨x, xs, hx⟩ := List.exists_cons_of_ne_nil hne
    cases (List.cons.inj hrest).1
    rw [hm, hx] at htail
    simp at htail
  case inr.cons a mid =>
    rw [(List.cons.inj hrest).2] at hr
    simp at hr

-- A variable of a parameter is one of the routine's own for one stem and one name only.
theorem varName_eq_iff {p : Param} {stem n : String} (hs : isName stem.toList)
    (hn : n.toList.all isNameChar) (hu : '_' ∉ n.toList) :
    p.varName stem = "_argsh_" ++ n ↔ stem = "_argsh" ∧ p.name = n := by
  constructor
  case mp =>
    intro h
    have ⟨hstem, hname⟩ := eq_of_varName hs hu h
    exact ⟨hstem, (nearestName_eq_iff hn hu).mp hname⟩
  case mpr =>
    rintro ⟨rfl, hname⟩
    rw [Param.varName, (nearestName_eq_iff hn hu).mpr hname, String.append_assoc]
    rfl

theorem own_iff (hs : isName o.stem.toList) :
    (∃ v ∈ unsetVariables c o, v ∈ ownVariables) ↔
      o.stem = "_argsh" ∧ ∃ p ∈ c.params, p.name ∈ ["value", "next", "positionals", "errors"] := by
  have hown : ownVariables = ["value", "next", "positionals", "errors"].map ("_argsh_" ++ ·) := by
    decide
  have hplain : ∀ n ∈ ["value", "next", "positionals", "errors"],
      n.toList.all isNameChar ∧ '_' ∉ n.toList := by
    decide
  rw [hown]
  constructor
  case mp =>
    rintro ⟨v, hv, hm⟩
    obtain ⟨p, hp, rfl⟩ := List.mem_map.mp hv
    obtain ⟨n, hn, he⟩ := List.mem_map.mp hm
    have ⟨hstem, hname⟩ := (varName_eq_iff hs (hplain n hn).1 (hplain n hn).2).mp he.symm
    exact ⟨hstem, p, hp, hname ▸ hn⟩
  case mpr =>
    rintro ⟨hstem, p, hp, hn⟩
    refine ⟨_, List.mem_map_of_mem hp, List.mem_map.mpr ⟨p.name, hn, ?_⟩⟩
    exact ((varName_eq_iff hs (hplain _ hn).1 (hplain _ hn).2).mpr ⟨hstem, rfl⟩).symm

theorem environment_iff :
    (∃ v ∈ unsetVariables c o, v ∈ environmentVariables c) ↔
      ∃ p ∈ c.params, ∃ q ∈ c.params, q.envVar = some (o.stem ++ "_" ++ nearestName p.name) := by
  have hne (p : Param) : p.varName o.stem ≠ "" := by
    intro h
    have := congrArg String.toList h
    simp [Param.varName] at this
  have hsome (p q : Param) :
      nonempty? q.envVar = some (p.varName o.stem) ↔ q.envVar = some (p.varName o.stem) := by
    simp [nonempty?, Option.filter_eq_some_iff, hne p]
  constructor
  case mp =>
    rintro ⟨v, hv, he⟩
    obtain ⟨p, hp, rfl⟩ := List.mem_map.mp hv
    obtain ⟨q, hq, he⟩ := List.mem_filterMap.mp he
    exact ⟨p, hp, q, hq, (hsome p q).mp he⟩
  case mpr =>
    rintro ⟨p, hp, q, hq, he⟩
    exact ⟨_, List.mem_map_of_mem hp, List.mem_filterMap.mpr ⟨q, hq, (hsome p q).mpr he⟩⟩

-- What is unset before the words are taken apart is a variable of the routine itself with one
-- stem and four names only, and a variable that a fallback asks for later if that variable is
-- called like the variable of a parameter.
theorem captured_iff (hs : isName o.stem.toList) (c : Command) :
    (c.params ≠ [] → ∀ children callPath, ∃ front back,
      parseBody c children o callPath =
          front ++ line ("unset " ++ " ".intercalate (unsetVariables c o)) :: back ∧
        ∀ p ∈ c.params, fallback p o.stem <:+: back ∨ indent (fallback p o.stem) <:+: back) ∧
    ((∃ v ∈ unsetVariables c o, v ∈ ownVariables) ↔
      o.stem = "_argsh" ∧ ∃ p ∈ c.params, p.name ∈ ["value", "next", "positionals", "errors"]) ∧
    ((∃ v ∈ unsetVariables c o, v ∈ environmentVariables c) ↔
      ∃ p ∈ c.params, ∃ q ∈ c.params, q.envVar = some (o.stem ++ "_" ++ nearestName p.name)) :=
  ⟨fallback_after_unset, own_iff hs, environment_iff⟩

-- An accepted script whose routine unsets what it then asks the environment for.
theorem captured_token : isName "argsh".toList ∧
    ∃ r, check "# @option --token $argsh_token\n" = .ok r ∧ r.ok ∧
      ∃ c ∈ r.tree.nodes, ∃ v ∈ unsetVariables c {}, v ∈ environmentVariables c := by
  have hs : isName ({} : Options).stem.toList := by decide
  have he : (check "# @option --token $argsh_token\n").toOption.map
      (fun r => (r.ok, r.tree.nodes.map (·.params.map fun p => (p.name, p.envVar)))) =
        some (true, [[("token", some "argsh_token")]]) := by
    decide +kernel
  obtain ⟨r, hr, he⟩ := Option.map_eq_some_iff.mp he
  obtain ⟨ho, hnodes⟩ := Prod.mk.inj he
  obtain ⟨c, hc, hparams⟩ := List.mem_map.mp (hnodes ▸ List.mem_cons_self)
  obtain ⟨p, hp, hpair⟩ := List.mem_map.mp (hparams ▸ List.mem_cons_self)
  obtain ⟨hname, henv⟩ := Prod.mk.inj hpair
  refine ⟨hs, r, Outcome.eq_ok_of_toOption hr, ho, c, hc, ?_⟩
  refine (captured_iff hs c).2.2.mpr ⟨p, hp, p, hp, ?_⟩
  rw [henv, hname]
  decide

end Routine

end ShellArgs
