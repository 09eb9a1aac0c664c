import ShellArgs.Proofs.Directive.Trace
import ShellArgs.Proofs.Shell.Flat

namespace ShellArgs

open Directive Text

-- A text without directives. A line of it may define a main function only if `main` holds.
def Silent (main : Prop) (s : String) : Prop :=
  ∀ l ∈ lines s.toList, ¬ IsMarked l ∧ (Defines "main".toList l → main)

section Silent

variable {main : Prop} {s : String} {ss : List String} {l : List Char}

theorem not_isMarked_of_head? (h : l.head? ≠ some '#') : ¬ IsMarked l := by
  rintro ⟨hashes, spaces, rest, rfl, hne, hh, _⟩
  obtain ⟨c, cs, rfl⟩ := List.exists_cons_of_ne_nil hne
  exact h (by simp [hh c List.mem_cons_self])

theorem head?_ofList_append {c : Char} {cs : List Char} (h : c ≠ '#') (s : String) :
    (String.ofList (c :: cs) ++ s).toList.head? ≠ some '#' := by
  rw [String.toList_append, String.toList_ofList]
  simpa using h

theorem silent_of_oneLine (h : OneLine s) (hm : ¬ IsMarked s.toList)
    (hd : Defines "main".toList s.toList → main) : Silent main s := by
  intro l hl
  rw [eq_of_mem_lines h hl]
  exact ⟨hm, hd⟩

theorem silent_intercalate (h : ∀ s ∈ ss, Silent main s) : Silent main ("
".intercalate ss) := by
  intro l hl
  rw [String.toList_intercalate] at hl
  rcases mem_lines_intercalate hl with rfl | ⟨s, hs, hl⟩
  case inl =>
    have hquiet := quiet_of_isBlankText (l := []) rfl
    exact ⟨hquiet.unmarked, fun hd => absurd hd (hquiet.undefining _)⟩
  case inr =>
    obtain ⟨t, ht, rfl⟩ := List.mem_map.mp hs
    exact h t ht l hl

end Silent

namespace Shell

variable {s t : String} {u v : List Char} {main : Prop}

-- The start of a line that defines no main function, however it goes on.
structure Lead (s : String) : Prop where
  oneLine : OneLine s
  steady  : ∀ indent rest, (∀ c ∈ indent, isBlank c) →
    ¬ Defines "main".toList (indent ++ (s.toList ++ rest))

namespace Lead

theorem append (h : Lead s) (ht : OneLine t) : Lead (s ++ t) where
  oneLine := oneLine_append.mpr ⟨h.oneLine, ht⟩
  steady  := by
    intro indent rest hi
    rw [String.toList_append, List.append_assoc]
    exact h.steady indent _ hi

-- A text that is no start of the words that count, and does not start like them.
def Apart (u : List Char) : Prop :=
  Flat u ∧ u.head?.any (!isBlank ·) ∧
    ∀ word ∈ ["function".toList, "main".toList], ¬ word <+: u ∧ ¬ u <+: word

instance : Decidable (Apart u) :=
  inferInstanceAs (Decidable (_ ∧ _ ∧ _))

theorem of_apart (h : Apart u) : Lead (String.ofList u) where
  oneLine := oneLine_ofList.mpr h.1
  steady  := by
    intro indent rest hi
    have ⟨_, hb, hw⟩ := h
    have hword {word : List Char} (hm : word ∈ ["function".toList, "main".toList]) :
        ¬ word <+: u ++ rest := by
      intro hp
      rcases List.prefix_or_prefix_of_prefix hp (List.prefix_append u rest) with h | h
      case inl => exact (hw word hm).1 h
      case inr => exact (hw word hm).2 h
    rw [String.toList_ofList (l := u)]
    refine not_defines_of_prefix hi ?_ (hword (.head _)) (hword (.tail _ (.head _)))
    cases u
    case nil      => simp at hb
    case cons c u => exact head?_cons (by simpa using hb)

-- The name of a variable for a value has a character that neither of the words has.
theorem of_mem (hs : ∀ c ∈ s.toList, isFunctionChar c) (hm : '_' ∈ s.toList) : Lead s where
  oneLine := fun c hc => not_isLineBreak_of_isFunctionChar (hs c hc)
  steady  := by
    intro indent rest hi
    refine not_defines_of_mem hi ?_ hs hm (by decide) (by decide)
    obtain ⟨c, cs, hc⟩ := List.exists_cons_of_ne_nil (List.ne_nil_of_mem hm)
    rw [hc]
    exact head?_cons (isBlank_eq_false_of_isFunctionChar (hs c (hc ▸ List.mem_cons_self)))

theorem doubleQuoted (h : OneLine s) : Lead (doubleQuoted s) :=
  ((Lead.of_apart (by decide)).append h).append (by decide)

end Lead

-- A word that ends where neither a blank nor an opening parenthesis follows.
def Stops (u : List Char) : Prop :=
  ∃ word c rest, u = word ++ c :: rest ∧ (∀ d ∈ word, isFunctionChar d) ∧ isBlank c = false ∧
    isFunctionChar c = false ∧ c ≠ '('

namespace Stops

theorem cons (c : Char) (h : isBlank c = false ∧ isFunctionChar c = false ∧ c ≠ '(') :
    Stops (c :: u) :=
  ⟨[], c, u, rfl, by simp, h⟩

theorem append_left (hv : ∀ c ∈ v, isFunctionChar c) (h : Stops u) : Stops (v ++ u) := by
  obtain ⟨word, c, rest, rfl, hw, h⟩ := h
  exact ⟨v ++ word, c, rest, by simp, List.forall_mem_append.mpr ⟨hv, hw⟩, h⟩

theorem lead (h : Stops s.toList) (ho : OneLine s) : Lead s where
  oneLine := ho
  steady  := by
    intro indent rest hi
    obtain ⟨word, c, rest', he, hw, hb, hf, hc⟩ := h
    have hend : ∀ d ∈ (c :: (rest' ++ rest)).head?,
        isBlank d = false ∧ isFunctionChar d = false ∧ d ≠ '(' := by
      rintro d ⟨⟩
      exact ⟨hb, hf, hc⟩
    have hstart : ∀ d ∈ (word ++ ([] ++ c :: (rest' ++ rest))).head?, isBlank d = false := by
      cases word
      case nil         => exact fun d hd => (hend d hd).1
      case cons d word =>
        exact head?_cons (isBlank_eq_false_of_isFunctionChar (hw d List.mem_cons_self))
    have : ¬ Defines "main".toList (indent ++ (word ++ ([] ++ c :: (rest' ++ rest)))) :=
      not_defines_of_word hi hstart hw (by simp) hend
    simpa [he] using this

theorem quote (h : Stops u) (s : String) : Stops ((quote s).toList ++ u) := by
  unfold Shell.quote
  split
  case isTrue => exact cons '\'' (by decide)
  case isFalse =>
    split
    case isTrue hp =>
      exact h.append_left fun c hc => isFunctionChar_of_isPlainChar (List.all_eq_true.mp hp c hc)
    case isFalse =>
      rw [String.toList_ofList]
      exact cons '\'' (by decide)

theorem glob (h : Stops u) (g : Glob) : Stops (g.written.toList ++ u) := by
  cases g
  case text s       => exact h.quote s
  case char         => exact h.append_left (List.all_eq_true.mp (by decide))
  case rest         => exact h.append_left (List.all_eq_true.mp (by decide))
  case charExcept c =>
    rw [Glob.written, String.toList_append, String.toList_append]
    exact cons '[' (by decide)

theorem pattern (h : Stops u) (p : Pattern) : Stops (p.written.toList ++ u) := by
  suffices ∀ gs : List Glob, Stops (gs.flatMap (·.written.toList) ++ u) by
    simpa [Pattern.written, List.flatMap_map] using this p.parts
  intro gs
  induction gs with
  | nil => exact h
  | cons g gs hi =>
    rw [List.flatMap_cons, List.append_assoc]
    exact hi.glob g

theorem alternatives (ps : List Pattern) : Stops (Pattern.alternatives ps).toList := by
  rw [Pattern.alternatives, String.toList_append, String.toList_intercalate]
  cases ps
  case nil => exact cons ')' (by decide)
  case cons p ps =>
    cases ps
    case nil => simpa using (cons ')' (by decide)).pattern p
    case cons q ps =>
      rw [List.map_cons, List.map_cons, List.map_cons, List.map_cons, List.intercalate_cons_cons,
        List.append_assoc, List.append_assoc]
      exact (cons '|' (by decide)).pattern p

end Stops

-- Names, values and patterns that keep to one line.
section OneLine

variable {word : String} {words : List String} {p : Pattern} {ps : List Pattern}

@[simp] theorem oneLine_scalar : OneLine (Assigned.scalar word).written ↔ OneLine word :=
  Iff.rfl

theorem oneLine_array (h : ∀ w ∈ words, OneLine w) : OneLine (Assigned.array words).written :=
  oneLine_append.mpr ⟨oneLine_append.mpr ⟨by decide, oneLine_intercalate (by decide) h⟩, by decide⟩

theorem oneLine_exactly (h : OneLine word) : OneLine (Pattern.exactly word).written := by
  simpa [Pattern.written, Pattern.exactly, Glob.written, String.join]

theorem oneLine_map_exactly (h : ∀ w ∈ words, OneLine w) :
    ∀ p ∈ words.map Pattern.exactly, OneLine p.written :=
  List.forall_mem_map.mpr fun w hw => oneLine_exactly (h w hw)

theorem oneLine_startingWith (h : OneLine word) : OneLine (Pattern.startingWith word).written := by
  simpa [Pattern.written, Pattern.startingWith, Glob.written, String.join] using ⟨h, by decide⟩

theorem oneLine_alternatives (h : ∀ p ∈ ps, OneLine p.written) :
    OneLine (Pattern.alternatives ps) :=
  oneLine_append.mpr ⟨oneLine_intercalate (by decide) (List.forall_mem_map.mpr h), by decide⟩

end OneLine

-- A line of code that defines no main function wherever it is set in.
structure Line.Inert (l : Line) : Prop where
  oneLine    : OneLine l.statement.written
  undefining : ∀ indent, (∀ c ∈ indent, isBlank c) →
    ¬ Defines "main".toList (indent ++ l.statement.written.toList)

theorem Lead.inert {l : Line} (h : Lead l.statement.written) : l.Inert where
  oneLine    := h.oneLine
  undefining := by
    intro indent hi
    simpa using h.steady indent [] hi

def Inert (ls : List Line) : Prop :=
  ∀ l ∈ ls, l.Inert

section Inert

variable {α : Type} {l : Line} {ls ms : List Line} {test target : String} {value : Assigned}

@[simp] theorem inert_nil : Inert [] :=
  fun _ h => nomatch h

@[simp] theorem inert_cons : Inert (l :: ls) ↔ l.Inert ∧ Inert ls :=
  List.forall_mem_cons

@[simp] theorem inert_append : Inert (ls ++ ms) ↔ Inert ls ∧ Inert ms :=
  List.forall_mem_append

@[simp] theorem inert_indent : Inert (indent ls) ↔ Inert ls :=
  List.forall_mem_map.trans ⟨fun h l hl => { h l hl with }, fun h l hl => { h l hl with }⟩

theorem inert_flatMap {as : List α} {f : α → List Line} (h : ∀ a ∈ as, Inert (f a)) :
    Inert (as.flatMap f) := by
  intro l hl
  obtain ⟨a, ha, hl⟩ := List.mem_flatMap.mp hl
  exact h a ha l hl

theorem inert_map {as : List α} {f : α → Line} (h : ∀ a ∈ as, (f a).Inert) : Inert (as.map f) :=
  List.forall_mem_map.mpr h

theorem inert_line (h : Lead s) : (line s).Inert :=
  Lead.inert h

theorem inert_conditional (ht : OneLine test) (h : Inert ls) : Inert (conditional test ls) := by
  have hif : Lead ("if " ++ test ++ "; then") :=
    ((Lead.of_apart (by decide)).append ht).append (by decide)
  have hfi : Lead "fi" := .of_apart (by decide)
  simpa [conditional] using ⟨inert_line hif, h, inert_line hfi⟩

theorem inert_case (word : String) (h : OneLine word) :
    (line ("case " ++ word ++ " in")).Inert :=
  inert_line (((Lead.of_apart (by decide)).append h).append (by decide))

theorem inert_assign {a : Assignment} (ht : Lead a.target) (hv : OneLine a.value.written) :
    (Statement.assign a).line.Inert := by
  refine Lead.inert ((ht.append ?_).append hv)
  split
  case isTrue  => decide
  case isFalse => decide

theorem inert_assignLine (ht : Lead target) (hv : OneLine value.written) :
    (assignLine target value).Inert :=
  inert_assign ht hv

theorem inert_appendLine (ht : Lead target) (hv : OneLine value.written) :
    (appendLine target value).Inert :=
  inert_assign ht hv

@[simp] theorem inert_shiftLine {n : Option Nat} : (shiftLine n).Inert := by
  cases n
  case none   => exact Lead.inert (.of_apart (by decide))
  case some n =>
    have hshift : Lead "shift " := .of_apart (by decide)
    exact Lead.inert (hshift.append oneLine_natRepr)

theorem inert_needValues {form words : String} {n : Nat} (hf : OneLine form) (hw : OneLine words) :
    (Statement.needValues form n words).line.Inert := by
  have hcommand : Lead ("_argsh_need_values " ++ quote form) :=
    (Lead.of_apart (by decide)).append (oneLine_quote.mpr hf)
  have hcount : Lead ("_argsh_need_values " ++ quote form ++ " " ++ toString n) :=
    (hcommand.append (by decide)).append oneLine_natRepr
  exact Lead.inert ((hcount.append (by decide)).append hw)

theorem inert_overArray {element array : String} (he : OneLine element) (ha : OneLine array) :
    (Statement.overArray element array).line.Inert := by
  have helements : OneLine (expand (array ++ "[@]+" ++ expandQuoted (array ++ "[@]"))) := by
    simpa [ha] using ⟨by decide, by decide⟩
  have hfor : Lead ("for " ++ element ++ " in ") :=
    ((Lead.of_apart (by decide)).append he).append (by decide)
  exact Lead.inert ((hfor.append helements).append (by decide))

theorem inert_armLine {ps : List Pattern} (h : ∀ p ∈ ps, OneLine p.written) : (armLine ps).Inert :=
  Lead.inert ((Stops.alternatives ps).lead (oneLine_alternatives h))

@[simp] theorem inert_armEnd : armEnd.Inert :=
  inert_line (.of_apart (by decide))

end Inert

section Silent

variable {l : Line} {ls : List Line} {f : FunctionDef}

theorem Lead.not_defines (h : Lead s) : ¬ Defines "main".toList s.toList := by
  have := h.steady [] [] (by simp)
  rwa [List.nil_append, List.append_nil] at this

theorem Lead.silent (h : Lead s) (hs : s.toList.head? ≠ some '#') : Silent main s :=
  silent_of_oneLine h.oneLine (not_isMarked_of_head? hs) fun hd => absurd hd h.not_defines

-- A line of code that is set in starts with a blank.
theorem Line.Inert.silent_append {blanks : String} (h : l.Inert)
    (hb : ∀ c ∈ blanks.toList, c = ' ') (hne : blanks.toList ≠ []) :
    Silent main (blanks ++ l.statement.written) := by
  refine silent_of_oneLine (oneLine_append.mpr ⟨?_, h.oneLine⟩) ?_ fun hd => ?_
  case refine_1 => exact fun c hc => hb c hc ▸ by decide
  case refine_2 =>
    obtain ⟨c, cs, hc⟩ := List.exists_cons_of_ne_nil hne
    have : c = ' ' := hb c (hc ▸ List.mem_cons_self)
    exact not_isMarked_of_head? (by simp [hc, this])
  case refine_3 =>
    rw [String.toList_append] at hd
    exact absurd hd (h.undefining _ fun c hc => hb c hc ▸ by decide)

theorem Line.Inert.silent (h : l.Inert) :
    Silent main (Line.written { l with depth := l.depth + 1 }) := by
  unfold Line.written
  simp only
  split
  case isTrue => exact fun l hl => nomatch hl
  case isFalse =>
    refine h.silent_append (fun c hc => ?_) (by simp [Nat.mul_add])
    rw [String.toList_ofList] at hc
    exact List.eq_of_mem_replicate hc

theorem Inert.silent (h : Inert ls) : ∀ s ∈ written (indent ls), Silent main s := by
  intro s hs
  obtain ⟨_, hm, rfl⟩ := List.mem_map.mp hs
  obtain ⟨l, hl, rfl⟩ := List.mem_map.mp hm
  exact (h l hl).silent

theorem silent_function (hn : Lead f.name) (hh : f.name.toList.head? ≠ some '#')
    (hb : ∀ s ∈ f.body, Silent main s) : Silent main f.written := by
  have hhead : (f.name ++ "() \x7b").toList.head? ≠ some '#' := by
    rw [String.toList_append, List.head?_append]
    cases hc : f.name.toList.head?
    case none   => decide
    case some c => rwa [Option.some_or, ← hc]
  refine silent_intercalate fun s hs => ?_
  simp only [List.mem_append, List.mem_singleton] at hs
  rcases hs with (rfl | hs) | rfl
  case inl.inl => exact (hn.append (by decide)).silent hhead
  case inl.inr => exact hb s hs
  case inr     => exact (show Lead "\x7d" from .of_apart (by decide)).silent (by decide)

end Silent

end Shell

end ShellArgs
