import ShellArgs.Proofs.Shell.Flat
import ShellArgs.Proofs.Shell.Reading

-- How the shell reads a line that sets a variable: to a list of words in parentheses, which makes it
-- an array, or else to a single word.

namespace ShellArgs.Shell

-- What a line of code gives a variable, if it is an assignment to it.
def assigned? (var : String) (code : List Char) : Option (List Char) :=
  let code := code.dropWhile (· = ' ')
  if code.takeWhile isNameChar = var.toList then
    match code.dropWhile isNameChar with
    | '=' :: value        => some value
    | '+' :: '=' :: value => some value
    | _                   => none
  else none

-- What follows the parenthesis that closes a list of words. Quoted characters close nothing. There is
-- no reading of characters that could mean something else.
def afterList? : Quoting → List Char → Option (List Char)
  | _,       []     => none
  | .single, c :: s => if c = '\'' then afterList? .bare s else afterList? .single s
  | .double, c :: s =>
    if c = '"' then afterList? .bare s
    else if c = '\\' ∨ c = '\x60' then none
    else afterList? .double s
  | .bare,   c :: s =>
    if c = ')' then some s
    else if c = '\'' then afterList? .single s
    else if c = '"' then afterList? .double s
    else if c = '(' ∨ c = '\\' ∨ c = '\x60' then none
    else afterList? .bare s

-- The value is a list of words in parentheses, which makes the variable an array.
def isList : List Char → Bool
  | '(' :: s => afterList? .bare s = some []
  | _        => false

variable {var s t : String} {cs ds : List Char} {l : Line}

theorem dropWhile_written :
    l.written.toList.dropWhile (· = ' ') = l.statement.written.toList.dropWhile (· = ' ') := by
  unfold Line.written
  simp only
  split
  case isTrue h  => simp [h]
  case isFalse h =>
    rw [String.toList_append, String.toList_ofList, List.dropWhile_append_of_pos]
    simp

theorem assigned?_written : assigned? var l.written.toList = assigned? var l.statement.written.toList := by
  simp only [assigned?, dropWhile_written]

section Assigned

-- The text sets no variable: it has no equals sign behind its first word.
def Unassigning (s : String) : Prop :=
  s.toList.head? ≠ some ' ' ∧ (s.toList.dropWhile isNameChar).head?.all (· ∉ ['=', '+'])

instance : Decidable (Unassigning s) :=
  inferInstanceAs (Decidable (_ ∧ _))

theorem Unassigning.assigned? (h : Unassigning s) : assigned? var s.toList = none := by
  have hcode : s.toList.dropWhile (· = ' ') = s.toList := by
    cases hs : s.toList with
    | nil       => rfl
    | cons c cs =>
      have hc : c ≠ ' ' := by simpa [hs] using h.1
      simp [hc]
  rw [Shell.assigned?, hcode]
  split
  case isFalse => rfl
  case isTrue  =>
    split
    case h_1 he => simpa [he] using h.2
    case h_2 he => simpa [he] using h.2
    case h_3    => rfl

-- The start of a text that sets no variable, however it goes on.
def Blocked (s : String) : Prop :=
  Unassigning s ∧ ¬ s.toList.all isNameChar

instance : Decidable (Blocked s) :=
  inferInstanceAs (Decidable (_ ∧ _))

theorem Blocked.append (h : Blocked s) : Blocked (s ++ t) := by
  obtain ⟨⟨hblank, hword⟩, hall⟩ := h
  have hrest : s.toList.dropWhile isNameChar ≠ [] := by
    simpa [List.dropWhile_eq_nil_iff] using hall
  obtain ⟨c, cs, hc⟩ := List.exists_cons_of_ne_nil hrest
  have hs : s.toList ≠ [] := by
    intro hs
    simp [hs] at hrest
  obtain ⟨d, ds, hd⟩ := List.exists_cons_of_ne_nil hs
  refine ⟨⟨?_, ?_⟩, ?_⟩
  case refine_1 => simpa [hd] using hblank
  case refine_2 =>
    rw [String.toList_append, List.dropWhile_append, hc]
    simpa [hc] using hword
  case refine_3 =>
    rw [String.toList_append, List.all_append]
    simp [hall]

theorem blocked_quote {f : String} (h : f.toList.head? = some '-') : Blocked (quote f) := by
  obtain ⟨cs, hf⟩ := List.head?_eq_some_iff.mp h
  have hdash : isNameChar '-' = false ∧ isNameChar '\'' = false := by decide
  unfold quote
  split
  case isTrue he => simp [hf] at he
  case isFalse =>
    split
    case isTrue  => simp [Blocked, Unassigning, hf, hdash]
    case isFalse => simp [Blocked, Unassigning, hdash]

theorem blocked_exactly {f : String} (h : f.toList.head? = some '-') :
    Blocked (Pattern.exactly f).written := by
  simpa [Pattern.written, Pattern.exactly, Glob.written, String.join] using blocked_quote h

theorem blocked_startingWith {f : String} (h : f.toList.head? = some '-') :
    Blocked (Pattern.startingWith f).written := by
  simpa [Pattern.written, Pattern.startingWith, Glob.written, String.join] using
    (blocked_quote h).append

theorem blocked_alternatives {ps : List Pattern} (h : ∀ q ∈ ps, Blocked q.written) :
    Blocked (Pattern.alternatives ps) := by
  cases ps with
  | nil       => decide
  | cons q qs =>
    have hq : Blocked q.written := h q List.mem_cons_self
    cases qs with
    | nil       => simpa [Pattern.alternatives] using hq.append
    | cons r rs =>
      have htext : Pattern.alternatives (q :: r :: rs) =
          q.written ++ ("|" ++ "|".intercalate ((r :: rs).map Pattern.written) ++ ")") := by
        simp [← String.toList_inj, Pattern.alternatives, String.toList_intercalate]
      exact htext ▸ hq.append

theorem assigned?_assignment {a : Assignment} (h : isName a.target.toList) :
    assigned? var a.written.toList =
      if a.target = var then some a.value.written.toList else none := by
  have hname := isNameChar_of_isName h
  have hblank (cs : List Char) : (a.target.toList ++ cs).dropWhile (· = ' ') = a.target.toList ++ cs := by
    cases ht : a.target.toList with
    | nil       => simp [ht, isName] at h
    | cons c ds =>
      have hc : c ≠ ' ' := by
        rintro rfl
        cases hname ' ' (by simp [ht])
      simp [hc]
  have hops : isNameChar '=' = false ∧ isNameChar '+' = false := by decide
  rw [Assignment.written, String.append_assoc, String.toList_append, assigned?, hblank,
    List.takeWhile_append_of_pos hname, List.dropWhile_append_of_pos hname]
  cases a.append <;> simp [hops, String.toList_inj]

end Assigned

section List

-- A part of a list that closes nothing.
def Inside (s : String) : Prop :=
  ∀ rest, afterList? .bare (s.toList ++ rest) = afterList? .bare rest

theorem Inside.append (hs : Inside s) (ht : Inside t) : Inside (s ++ t) := by
  intro rest
  rw [String.toList_append, List.append_assoc, hs, ht]

theorem inside_plain (h : ∀ c ∈ s.toList, isPlainChar c) : Inside s := by
  intro rest
  generalize s.toList = cs at h
  induction cs with
  | nil => rfl
  | cons c cs hi =>
    obtain ⟨hc, hcs⟩ := List.forall_mem_cons.mp h
    have hne : c ≠ ')' ∧ c ≠ '\'' ∧ c ≠ '"' ∧ c ≠ '(' ∧ c ≠ '\\' ∧ c ≠ '\x60' := by
      refine ⟨?_, ?_, ?_, ?_, ?_, ?_⟩
      all_goals
        rintro rfl
        cases hc
    simp [afterList?, hne, hi hcs]

theorem afterList?_single : afterList? .single (cs.flatMap quoteChar ++ '\'' :: ds) =
    afterList? .bare ds := by
  induction cs with
  | nil => simp [afterList?]
  | cons c cs hi =>
    by_cases hc : c = '\''
    case neg => simp [afterList?, quoteChar, hc, hi]
    case pos =>
      subst hc
      simp [afterList?, quoteChar, hi]

theorem inside_quote : Inside (quote s) := by
  unfold quote
  split
  case isTrue => simp [Inside, afterList?]
  case isFalse =>
    split
    case isTrue h  => exact inside_plain (List.all_eq_true.mp h)
    case isFalse h => simp [Inside, afterList?, afterList?_single]

-- Characters that stay between double quotes.
def Quotable (s : String) : Prop :=
  s.toList.all (· ∉ ['"', '\\', '\x60'])

instance : Decidable (Quotable s) :=
  inferInstanceAs (Decidable (_ = _))

theorem Quotable.append (hs : Quotable s) (ht : Quotable t) : Quotable (s ++ t) := by
  rw [Quotable, String.toList_append, List.all_append, Bool.and_eq_true]
  exact ⟨hs, ht⟩

theorem Quotable.inside (h : Quotable s) : Inside (doubleQuoted s) := by
  intro rest
  have hread : afterList? .double (s.toList ++ '"' :: rest) = afterList? .bare rest := by
    unfold Quotable at h
    generalize s.toList = cs at h
    induction cs with
    | nil => simp [afterList?]
    | cons c cs hi =>
      simp only [List.all_cons, Bool.and_eq_true] at h
      have ⟨hc, hcs⟩ := h
      have hne : c ≠ '"' ∧ c ≠ '\\' ∧ c ≠ '\x60' := by simpa using hc
      simp [afterList?, hne, hi hcs]
  simp [doubleQuoted, afterList?, hread]

-- Names of functions and variables stay as they are between double quotes.
theorem quotable_of_forall {s : String} {valid : Char → Bool} (h : ∀ c ∈ s.toList, valid c)
    (hv : ['"', '\\', '\x60'].any valid = false) : Quotable s := by
  refine List.all_eq_true.mpr fun c hc => decide_eq_true fun hm => ?_
  exact List.any_eq_false.mp hv c hm (h c hc)

theorem quotable_natRepr (n : Nat) : Quotable (toString n) :=
  quotable_of_forall (fun _ hc => isNameChar_of_mem_natRepr hc) (by decide)

theorem quotable_expand {s : String} (h : Quotable s) : Quotable (expand s) :=
  ((by decide : Quotable "$\x7b").append h).append (by decide)

theorem inside_expandQuoted {s : String} (h : Quotable s) : Inside (expandQuoted s) :=
  (quotable_expand h).inside

theorem inside_intercalate {ws : List String} (h : ∀ w ∈ ws, Inside w) :
    Inside (" ".intercalate ws) := by
  have hblank : Inside " " := fun rest => by simp [afterList?]
  induction ws with
  | nil          => exact fun rest => rfl
  | cons w ws hi =>
    obtain ⟨hw, hws⟩ := List.forall_mem_cons.mp h
    cases ws with
    | nil        => simpa using hw
    | cons v vs  =>
      rw [String.intercalate_cons_cons]
      exact (hw.append hblank).append (hi hws)

theorem isList_array {ws : List String} (h : ∀ w ∈ ws, Inside w) :
    isList (Assigned.array ws).written.toList = true := by
  have hinside := inside_intercalate h [')']
  rw [Assigned.written, String.toList_append, String.toList_append]
  simpa [isList, afterList?] using hinside

example : isList "('a)' \"$(f)\" b)".toList = true ∧ isList "(a) b".toList = false := by
  decide

theorem head?_doubleQuoted {s : String} : (doubleQuoted s).toList.head? ≠ some '(' := by
  simp [doubleQuoted]

theorem head?_quote {s : String} : (quote s).toList.head? ≠ some '(' := by
  unfold quote
  split
  case isTrue => simp
  case isFalse =>
    split
    case isFalse => simp
    case isTrue h =>
      intro hs
      cases List.all_eq_true.mp h '(' (List.mem_of_mem_head? hs)

theorem isList_scalar (h : s.toList.head? ≠ some '(') :
    isList (Assigned.scalar s).written.toList = false := by
  rw [Assigned.written]
  unfold isList
  split
  case h_1 he => simp [he] at h
  case h_2    => rfl

end List

end ShellArgs.Shell
