import ShellArgs.Proofs.Generation
import ShellArgs.Proofs.Routine.Names
import ShellArgs.Proofs.Shell.Flat
import ShellArgs.Proofs.Text.Physical

-- Usage texts are printed as here-documents. Whatever a text says, the shell reads it back as it is,
-- since none of its lines is the one that ends the document.

namespace ShellArgs

open Outcome Shell Text

-- A line without line breaks is read as it stands.
theorem Text.mem_lines_of_mem_physicalLines {s : String} {l : List Char} (h : l ∈ physicalLines s)
    (hf : Flat l) (hne : l ≠ []) : l ∈ lines s.toList := by
  have hl : l ∈ (physicalLines s).flatMap pieces :=
    List.mem_flatMap.mpr ⟨l, h, by simp [pieces_of_flat hf]⟩
  cases flatMap_pieces_physicalLines s
  case inl he => exact he ▸ hl
  case inr he =>
    rw [he] at hl
    simpa [hne] using hl

namespace Shell

variable {ending : String} {before after : List (List Char)}

-- The line that opens a here-document.
def documentOpening (ending : String) : String :=
  "    cat <<'" ++ ending ++ "'"

-- The document that is opened in some code: the lines after the opening, up to the first one that is
-- the ending. Without an ending there is no document.
def document? (ending code : String) : Option String :=
  let after := ((physicalLines code).dropWhile (· ≠ (documentOpening ending).toList)).drop 1
  if ending.toList ∈ after then
    some (String.ofList (['\n'].intercalate (after.takeWhile (· ≠ ending.toList))))
  else none

theorem document?_eq_some {code text : String}
    (hc : physicalLines code =
      before ++ (documentOpening ending).toList :: (physicalLines text ++ ending.toList :: after))
    (hb : (documentOpening ending).toList ∉ before) (ht : ending.toList ∉ physicalLines text) :
    document? ending code = some text := by
  have hbefore : ∀ l ∈ before, decide (l ≠ (documentOpening ending).toList) := fun l hl =>
    decide_eq_true (ne_of_mem_of_not_mem hl hb)
  have htext : ∀ l ∈ physicalLines text, decide (l ≠ ending.toList) := fun l hl =>
    decide_eq_true (ne_of_mem_of_not_mem hl ht)
  have hjoin : ['\n'].intercalate (physicalLines text) = text.toList := List.intercalate_splitOn '\n'
  rw [document?, hc, List.dropWhile_append_of_pos hbefore]
  simp only [ne_eq, not_true_eq_false, decide_false, Bool.false_eq_true, not_false_eq_true,
    List.dropWhile_cons_of_neg, List.drop_succ_cons, List.drop_zero]
  rw [if_pos (by simp), List.takeWhile_append_of_pos htext]
  simp [hjoin]

end Shell

namespace Tree

variable {t : Tree} {c : Command} {i : Int} {e : TreeError}

-- A failure that comes from a reference to a place that there is not.
def Lost (t : Tree) (e : TreeError) : Prop :=
  ∃ i, e = .noNode i ∧ t.place? i = none

theorem lost_of_node (h : t.node i = .error e) : t.Lost e := by
  unfold node at h
  split at h
  case h_2 hp => exact ⟨i, (Except.error.inj h).symm, hp⟩
  case h_1 p hp =>
    rw [List.getElem?_eq_getElem (place?_lt hp)] at h
    cases h

theorem lost_of_childrenOf (h : t.childrenOf c = .error e) : t.Lost e := by
  have ⟨_, _, hn⟩ := exists_of_mapM_eq_error h
  exact lost_of_node hn

theorem lost_of_path_go {n : Nat} {seen : List Int} {names : List String}
    (h : path.go t n seen c names = .error e) : t.Lost e := by
  induction n generalizing seen c names with
  | zero => cases h
  | succ n hi =>
    unfold path.go at h
    split at h
    case h_1 => cases h
    case h_2 p _ =>
      split at h
      case isTrue => cases h
      case isFalse =>
        cases hp : t.node p with
        | error e' =>
          rw [hp] at h
          cases h
          exact lost_of_node hp
        | ok d =>
          rw [hp] at h
          exact hi h

end Tree

namespace Routine

section Delimiters

variable {n : Nat}

theorem oneLine_delimiter (n : Nat) : OneLine (delimiter n) := by
  cases n
  case zero   => decide
  case succ n => exact oneLine_append.mpr ⟨oneLine_append.mpr ⟨by decide, oneLine_natRepr⟩, by decide⟩

theorem delimiter_succ (n : Nat) :
    delimiter (n + 1) = "__ARGSH_USAGE_" ++ toString (n + 1) ++ "__" :=
  rfl

theorem delimiter_ne_nil (n : Nat) : (delimiter n).toList ≠ [] := by
  cases n with
  | zero   => decide
  | succ n => simp [delimiter_succ]

theorem delimiter_zero_ne_succ : delimiter 0 ≠ delimiter (n + 1) := by
  intro h
  have hzero : delimiter 0 = "__ARGSH_USAGE_" ++ "_" := rfl
  rw [hzero, delimiter_succ, String.append_assoc] at h
  have hlength := congrArg String.length ((String.append_right_inj _).mp h)
  rw [String.length_append] at hlength
  have : "_".length < "__".length := by decide
  omega

theorem delimiter_injective : Function.Injective delimiter := by
  intro m n h
  cases m <;> cases n
  case zero.zero => rfl
  case zero.succ n => exact absurd h delimiter_zero_ne_succ
  case succ.zero m => exact absurd h.symm delimiter_zero_ne_succ
  case succ.succ m n =>
    have hm := (String.append_right_inj _).mp ((String.append_left_inj _).mp h)
    exact congrArg (· + 1) (Nat.succ.inj (Nat.repr_inj.mp hm))

end Delimiters

-- The lines among which a delimiter is searched for.
def readLines (text : String) : List String :=
  (Text.lines text.toList).map String.ofList

-- The search for a delimiter goes on to the next candidate as long as a candidate is a line.
inductive Searched (lines : List String) : Nat → Prop
  | start : Searched lines 0
  | next {n : Nat} (h : Searched lines n) (hn : delimiter n ∈ lines) : Searched lines (n + 1)

variable {text : String} {lines : List String} {n : Nat} {t : Tree} {c : Command} {o : Options}
  {f : FunctionDef}

namespace Searched

theorem mem (h : Searched lines n) {m : Nat} (hm : m < n) : delimiter m ∈ lines := by
  induction h with
  | start => cases hm
  | next _ hn hi =>
    cases Nat.lt_succ_iff_lt_or_eq.mp hm
    case inl hm => exact hi hm
    case inr hm => exact hm ▸ hn

theorem of_forall (h : ∀ m < n, delimiter m ∈ lines) : Searched lines n := by
  induction n with
  | zero => exact .start
  | succ n hi => exact .next (hi fun m hm => h m (by omega)) (h n (by omega))

-- All candidates are different, so that there are not enough lines for all of them.
theorem le_length (h : Searched lines n) : n ≤ lines.length := by
  have hnodup : ((List.range n).map delimiter).Nodup :=
    List.nodup_range.map delimiter_injective
  have hsubset : (List.range n).map delimiter ⊆ lines := by
    intro d hd
    have ⟨m, hm, hd⟩ := List.mem_map.mp hd
    exact hd ▸ h.mem (List.mem_range.mp hm)
  simpa using (List.subperm_of_subset hnodup hsubset).length_le

end Searched

-- The search comes to an end, and the candidate it ends with is no line.
theorem exists_searched (text : String) :
    ∃ n, freeDelimiter text = delimiter n ∧ Searched (readLines text) n ∧
      delimiter n ∉ readLines text := by
  have hfree : ∃ n, delimiter n ∉ readLines text := by
    by_contra hall
    push Not at hall
    have := (Searched.of_forall fun m (_ : m < (readLines text).length + 1) => hall m).le_length
    omega
  have hbefore {m : Nat} (hm : m < Nat.find hfree) : delimiter m ∈ readLines text :=
    not_not.mp (Nat.find_min hfree hm)
  have hsearched : Searched (readLines text) (Nat.find hfree) := .of_forall fun _ => hbefore
  refine ⟨Nat.find hfree, ?_, hsearched, Nat.find_spec hfree⟩
  have hfirst : (List.range ((readLines text).length + 1)).find?
      ((!(readLines text).contains ·) ∘ delimiter) = some (Nat.find hfree) := by
    refine List.find?_range_eq_some.mpr ⟨?_, ?_, fun m hm => ?_⟩
    case refine_1 => simpa using Nat.find_spec hfree
    case refine_2 => exact List.mem_range.mpr (Nat.lt_succ_of_le hsearched.le_length)
    case refine_3 => simpa using hbefore hm
  have hmap : freeDelimiter text = (((List.range ((readLines text).length + 1)).find?
      ((!(readLines text).contains ·) ∘ delimiter)).map delimiter).getD (delimiter 0) :=
    congrArg (·.getD (delimiter 0)) List.find?_map
  rw [hmap, hfirst]
  rfl

-- The chosen candidate cannot end a here-document before the end of its text.
theorem freeDelimiter_not_mem (text : String) : (freeDelimiter text).toList ∉ physicalLines text := by
  have ⟨n, hn, _, hfree⟩ := exists_searched text
  rw [hn]
  intro hm
  have hl := mem_lines_of_mem_physicalLines hm (oneLine_delimiter n) (delimiter_ne_nil n)
  exact hfree (List.mem_map.mpr ⟨_, hl, String.ofList_toList⟩)

example : freeDelimiter "__ARGSH_USAGE__\nsee __ARGSH_USAGE_1__" = "__ARGSH_USAGE_1__" := by
  decide

-- The lines of a routine that prints a text. The opening of the here-document is its second line.
theorem physicalLines_usage {name : String} {text : String} (n : Nat) (hname : OneLine name) :
    physicalLines (FunctionDef.written
        ⟨name, [documentOpening (delimiter n), text, delimiter n]⟩) =
      [(name ++ "() \x7b").toList] ++ (documentOpening (delimiter n)).toList ::
        (physicalLines text ++ (delimiter n).toList :: ["\x7d".toList]) := by
  have hline {s : String} (hs : OneLine s) : physicalLines s = [s.toList] :=
    List.splitOn_eq_singleton fun h => absurd (hs _ h) (by decide)
  have hopens : OneLine (name ++ "() \x7b") := oneLine_append.mpr ⟨hname, by decide⟩
  have hopening : OneLine (documentOpening (delimiter n)) :=
    oneLine_append.mpr ⟨oneLine_append.mpr ⟨by decide, oneLine_delimiter n⟩, by decide⟩
  have hclosing : OneLine "\x7d" := by decide
  rw [FunctionDef.written, physicalLines_intercalate (by simp)]
  simp only [List.cons_append, List.nil_append, List.flatMap_cons, List.flatMap_nil, List.append_nil,
    hline hopens, hline hopening, hline (oneLine_delimiter n), hline hclosing]

theorem lost_of_usageText {e : TreeError} (h : usageText t c o = .error e) : t.Lost e := by
  cases hc : t.childrenOf c with
  | error e' =>
    rw [usageText, hc] at h
    cases h
    exact Tree.lost_of_childrenOf hc
  | ok children =>
    cases hp : t.path c with
    | error e' =>
      rw [usageText, hc, ok_bind, callPath, hp] at h
      cases h
      exact Tree.lost_of_path_go hp
    | ok path =>
      obtain ⟨_, ht⟩ := exists_usageText hc hp o
      rw [ht] at h
      cases h

theorem document?_usage (h : usageText t c o = .ok text) :
    ∃ f, usageRoutine t c o = .ok f ∧ document? (freeDelimiter text) f.written = some text := by
  have hf : usageRoutine t c o = .ok
      ⟨usageName c.index, [documentOpening (freeDelimiter text), text, freeDelimiter text]⟩ := by
    rw [usageRoutine, h]
    rfl
  refine ⟨_, hf, ?_⟩
  have hfree := freeDelimiter_not_mem text
  obtain ⟨n, hn, _⟩ := exists_searched text
  rw [hn] at hfree ⊢
  have hname : OneLine (usageName c.index) := oneLine_append.mpr ⟨by decide, oneLine_intRepr⟩
  refine document?_eq_some (physicalLines_usage n hname) ?_ hfree
  rw [List.mem_singleton]
  intro he
  have hhead := congrArg List.head? he
  simp [documentOpening, usageName_eq] at hhead

-- A usage text is printed as it is, whatever it says. Only a reference to a place that there is not
-- can make the text fail. When there is a text, the search for a delimiter comes to an end after at
-- most as many steps as the text has lines.
theorem usage_prints_itself (t : Tree) (c : Command) (o : Options) :
    (∃ e, t.Lost e ∧ usageText t c o = .error e ∧ usageRoutine t c o = .error e) ∨
    ∃ text f n, usageText t c o = .ok text ∧ usageRoutine t c o = .ok f ∧
      freeDelimiter text = delimiter n ∧
      (∀ m, Searched (readLines text) m ↔ m ≤ n) ∧ n ≤ (readLines text).length ∧
      (delimiter n).toList ∉ physicalLines text ∧
      document? (delimiter n) f.written = some text := by
  cases ht : usageText t c o with
  | error e =>
    refine .inl ⟨e, lost_of_usageText ht, rfl, ?_⟩
    rw [usageRoutine, ht]
    rfl
  | ok text =>
    obtain ⟨f, hf, hd⟩ := document?_usage ht
    have hfree := freeDelimiter_not_mem text
    obtain ⟨n, hn, hs, hstop⟩ := exists_searched text
    rw [hn] at hd hfree
    refine .inr ⟨text, f, n, rfl, hf, hn, fun m => ⟨?_, ?_⟩, hs.le_length, hfree, hd⟩
    case refine_1 =>
      intro hm
      by_contra hlt
      exact hstop (hm.mem (by omega))
    case refine_2 => exact fun hm => .of_forall fun k hk => hs.mem (by omega)

end Routine

end ShellArgs
