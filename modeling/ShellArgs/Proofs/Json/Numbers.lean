import Mathlib.Data.List.Infix
import ShellArgs.Decimal.Literal
import ShellArgs.Json.Printer
import ShellArgs.Json.Reader

-- Numbers in the middle of a text. What is read of a number does not depend on what comes behind
-- it, as long as that begins as it does between the values of an object.

namespace ShellArgs.Json

-- What can come behind a value.
def Delimited (rest : List Char) : Prop :=
  ∀ c ∈ rest.head?, c = ',' ∨ c = '\x7d' ∨ isSpace c

-- The characters of floating-point numbers.
def isNumberChar (c : Char) : Bool :=
  c.isDigit || "+-.NIaefinty".toList.contains c

def OfNumber (s : String) : Prop :=
  ∀ c ∈ s.toList, isNumberChar c

instance {s : String} : Decidable (OfNumber s) :=
  List.decidableBAll (isNumberChar ·) s.toList

section Parts

variable {s r rest : List Char} {c : Char} {v : Json} {negative : Bool}

theorem Delimited.continues_not (h : Delimited (c :: rest)) :
    c.isDigit = false ∧ c ≠ '.' ∧ c ≠ 'e' ∧ c ≠ 'E' ∧ c ≠ '-' ∧ c ≠ '+' := by
  have hc := h c rfl
  simp only [isSpace, Bool.or_eq_true, beq_iff_eq, or_assoc] at hc
  obtain rfl | rfl | rfl | rfl | rfl | rfl := hc <;> decide

theorem decimalDigits_append (h : Delimited rest) (s : List Char) :
    decimalDigits (s ++ rest) = ((decimalDigits s).1, (decimalDigits s).2 ++ rest) := by
  unfold decimalDigits
  induction s
  case nil =>
    cases rest
    case nil         => rfl
    case cons c rest => simp [h.continues_not.1]
  case cons c s hi =>
    cases hc : c.isDigit
    case true  => simpa [hc] using hi
    case false => simp [hc]

theorem placesPart_append (h : Delimited rest) (s : List Char) :
    placesPart (s ++ rest) = ((placesPart s).1, (placesPart s).2 ++ rest) := by
  cases s
  case nil =>
    cases rest
    case nil         => rfl
    case cons c rest =>
      have hdot := h.continues_not.2.1
      unfold placesPart
      split <;> simp_all
  case cons c s =>
    by_cases hc : c = '.'
    case pos =>
      subst hc
      simp only [List.cons_append, placesPart, decimalDigits_append h]
      rcases decimalDigits s with ⟨_ | _, _⟩ <;> rfl
    case neg =>
      unfold placesPart
      split <;> simp_all

theorem exponentPart_cons (c : Char) (s : List Char) : exponentPart (c :: s) =
    if c = 'e' ∨ c = 'E' then
      match decimalDigits (Decimal.sign s).2 with
      | ([], _) => (none, c :: s)
      | (ds, r) =>
        (some (if (Decimal.sign s).1 then -(digitsToNat ds : Int) else digitsToNat ds), r)
    else (none, c :: s) := by
  rfl

theorem sign_append (h : Delimited rest) (s : List Char) :
    Decimal.sign (s ++ rest) = ((Decimal.sign s).1, (Decimal.sign s).2 ++ rest) := by
  cases s
  case nil =>
    cases rest
    case nil         => rfl
    case cons c rest =>
      have ⟨_, _, _, _, hminus, hplus⟩ := h.continues_not
      simp [Decimal.sign, hminus, hplus]
  case cons c s =>
    unfold Decimal.sign
    split <;> simp_all

theorem exponentPart_append (h : Delimited rest) (s : List Char) :
    exponentPart (s ++ rest) = ((exponentPart s).1, (exponentPart s).2 ++ rest) := by
  cases s
  case nil =>
    cases rest
    case nil         => rfl
    case cons c rest =>
      have ⟨_, _, he, hE, _⟩ := h.continues_not
      simp [exponentPart, he, hE]
  case cons c s =>
    rw [List.cons_append, exponentPart_cons, exponentPart_cons]
    split
    case isFalse => rfl
    case isTrue =>
      rw [sign_append h, decimalDigits_append h]
      rcases decimalDigits (Decimal.sign s).2 with ⟨_ | _, _⟩ <;> rfl

-- The digits that a number begins with. Behind a zero there are no more.
def wholePart? : List Char → Option (List Char × List Char)
  | '0' :: s => some (['0'], s)
  | s        =>
    match decimalDigits s with
    | ([], _) => none
    | (ds, s) => some (ds, s)

def endNumber? (negative : Bool) (whole s : List Char) : Option (Json × List Char) :=
  match (placesPart s).1, (exponentPart (placesPart s).2).1 with
  | none, none =>
    if mostDigits < whole.length then none
    else
      let n := digitsToNat whole
      some (.int (if negative then -n else n), (exponentPart (placesPart s).2).2)
  | places, exponent =>
    let places := places.getD []
    let x := exponent.getD 0 - places.length
    some (.float (.ofDecimal negative (digitsToNat (whole ++ places)) x),
      (exponentPart (placesPart s).2).2)

theorem wholePart?_of_ne (h : s.head? ≠ some '0') : wholePart? s =
    match decimalDigits s with
    | ([], _) => none
    | (ds, s) => some (ds, s) := by
  unfold wholePart?
  split
  case h_1 => simp at h
  case h_2 => rfl

theorem number?_eq (negative : Bool) (s : List Char) :
    number? negative s = (wholePart? s).bind fun (whole, s) => endNumber? negative whole s := by
  unfold number?
  extract_lets finish
  have hfinish (w : List Char × List Char) : finish w = endNumber? negative w.1 w.2 := by
    dsimp only [finish]
    unfold endNumber?
    cases (placesPart w.2).1 <;> cases (exponentPart (placesPart w.2).2).1 <;> rfl
  clear_value finish
  obtain rfl : finish = _ := funext hfinish
  split
  case h_1 => rfl
  case h_2 hs =>
    have hs : s.head? ≠ some '0' := fun h =>
      have ⟨t, ht⟩ := List.head?_eq_some_iff.mp h
      hs t ht
    rw [wholePart?_of_ne hs]
    rcases decimalDigits s with ⟨_ | _, _⟩ <;> rfl

theorem wholePart?_append (h : Delimited rest) (s : List Char) :
    wholePart? (s ++ rest) = (wholePart? s).map (Prod.map id (· ++ rest)) := by
  by_cases hs : s.head? = some '0'
  case pos =>
    obtain ⟨s, rfl⟩ : ∃ t, s = '0' :: t := List.head?_eq_some_iff.mp hs
    rfl
  case neg =>
    have hs' : (s ++ rest).head? ≠ some '0' := by
      cases s
      case nil =>
        intro hr
        obtain ⟨rest, rfl⟩ := List.head?_eq_some_iff.mp hr
        cases h.continues_not.1
      case cons => exact hs
    rw [wholePart?_of_ne hs, wholePart?_of_ne hs', decimalDigits_append h]
    rcases decimalDigits s with ⟨_ | _, _⟩ <;> rfl

theorem endNumber?_append (h : Delimited rest) (whole s : List Char) :
    endNumber? negative whole (s ++ rest) =
      (endNumber? negative whole s).map (Prod.map id (· ++ rest)) := by
  unfold endNumber?
  rw [placesPart_append h, exponentPart_append h]
  dsimp only
  cases (placesPart s).1 <;> cases (exponentPart (placesPart s).2).1
  case none.none =>
    dsimp only
    split <;> rfl
  all_goals rfl

theorem number?_append (h : Delimited rest) (s : List Char) :
    number? negative (s ++ rest) = (number? negative s).map (Prod.map id (· ++ rest)) := by
  rw [number?_eq, number?_eq, wholePart?_append h]
  cases wholePart? s
  case none   => rfl
  case some w => exact endNumber?_append h w.1 w.2

theorem placesPart_suffix (s : List Char) : (placesPart s).2 <:+ s := by
  unfold placesPart
  split
  case h_2 => exact List.suffix_refl s
  case h_1 s =>
    have hs : (decimalDigits s).2 <:+ s := List.dropWhile_suffix _
    split
    case h_1       => exact List.suffix_refl _
    case h_2 he    => exact (he ▸ hs).trans (List.suffix_cons _ _)

theorem sign_suffix (s : List Char) : (Decimal.sign s).2 <:+ s := by
  unfold Decimal.sign
  split
  case h_1 | h_2 => exact List.suffix_cons _ _
  case h_3       => exact List.suffix_refl s

theorem exponentPart_suffix (s : List Char) : (exponentPart s).2 <:+ s := by
  cases s
  case nil => exact List.suffix_refl _
  case cons c s =>
    rw [exponentPart_cons]
    split
    case isFalse => exact List.suffix_refl _
    case isTrue =>
      have hs : (decimalDigits (Decimal.sign s).2).2 <:+ s :=
        (List.dropWhile_suffix _).trans (sign_suffix s)
      split
      case h_1    => exact List.suffix_refl _
      case h_2 he => exact (he ▸ hs).trans (List.suffix_cons _ _)

theorem endNumber?_suffix {whole : List Char} (h : endNumber? negative whole s = some (v, r)) :
    r <:+ s := by
  have hr : (exponentPart (placesPart s).2).2 <:+ s :=
    (exponentPart_suffix _).trans (placesPart_suffix s)
  unfold endNumber? at h
  split at h
  case h_2 => cases h; exact hr
  case h_1 =>
    split at h
    case isTrue  => cases h
    case isFalse => cases h; exact hr

-- A number begins with a digit, and what is left of the text is its end.
theorem number?_eq_some (h : number? negative s = some (v, r)) :
    (∃ c ∈ s.head?, c.isDigit) ∧ r <:+ s := by
  rw [number?_eq] at h
  obtain ⟨⟨whole, t⟩, hw, h⟩ := Option.bind_eq_some_iff.mp h
  have hr := endNumber?_suffix h
  by_cases hs : s.head? = some '0'
  case pos =>
    obtain ⟨s, rfl⟩ := List.head?_eq_some_iff.mp hs
    cases hw
    exact ⟨⟨'0', rfl, rfl⟩, hr.trans (List.suffix_cons _ _)⟩
  case neg =>
    rw [wholePart?_of_ne hs] at hw
    split at hw
    case h_1 => cases hw
    case h_2 hne he =>
      cases hw
      have ht : (decimalDigits s).2 <:+ s := List.dropWhile_suffix _
      rw [he] at ht
      refine ⟨?_, hr.trans ht⟩
      cases s
      case nil =>
        cases he
        cases hne rfl
      case cons c s =>
        refine ⟨c, rfl, ?_⟩
        by_contra hc
        rw [decimalDigits, List.takeWhile_cons_of_neg hc] at he
        cases he
        cases hne rfl

-- The value that begins with a digit, or with a minus sign before one, is a number.
theorem value?_digit {n : Nat} (h : ∃ c ∈ s.head?, c.isDigit) :
    value? (n + 1) s = number? false s ∧ value? (n + 1) ('-' :: s) = number? true s := by
  obtain ⟨c, hc, hd⟩ := h
  obtain ⟨s, rfl⟩ := List.head?_eq_some_iff.mp hc
  have hne (d : Char) (h : d.isDigit = false) : c ≠ d := by
    rintro rfl
    rw [hd] at h
    cases h
  constructor
  case left =>
    unfold value?
    split <;> simp_all
  case right =>
    unfold value?
    split <;> simp_all

end Parts

section Texts

variable {s t : String} {ds : List Char}

theorem ofNumber_append : OfNumber (s ++ t) ↔ OfNumber s ∧ OfNumber t := by
  rw [OfNumber, String.toList_append, List.forall_mem_append]
  rfl

theorem ofNumber_digits (h : ∀ c ∈ ds, c.isDigit) : OfNumber (String.ofList ds) := by
  intro c hc
  rw [String.toList_ofList] at hc
  simp [isNumberChar, h c hc]

theorem isDigit_of_mem_toDigits {n : Nat} : ∀ c ∈ Nat.toDigits 10 n, c.isDigit :=
  fun _ h => Nat.isDigit_of_mem_toDigits (by decide) (by decide) h

theorem ofNumber_exponentText (x : Int) : OfNumber (Binary64.exponentText x) := by
  have hds : OfNumber (String.ofList (Nat.toDigits 10 x.natAbs)) :=
    ofNumber_digits isDigit_of_mem_toDigits
  refine ofNumber_append.mpr ⟨?_, ?_⟩
  case refine_1 => split <;> decide
  case refine_2 =>
    split
    case isTrue  => exact ofNumber_append.mpr ⟨by decide, hds⟩
    case isFalse => exact hds

theorem ofNumber_layout (h : ∀ c ∈ ds, c.isDigit) (position : Int) :
    OfNumber (Binary64.layout ⟨16, ".0"⟩ ds position) := by
  have htake (n : Nat) : OfNumber (String.ofList (ds.take n)) :=
    ofNumber_digits fun c hc => h c (List.mem_of_mem_take hc)
  have hdrop (n : Nat) : OfNumber (String.ofList (ds.drop n)) :=
    ofNumber_digits fun c hc => h c (List.mem_of_mem_drop hc)
  have hzeros (n : Nat) : OfNumber (String.ofList (List.replicate n '0')) :=
    ofNumber_digits fun c hc => by rw [List.eq_of_mem_replicate hc]; decide
  unfold Binary64.layout
  dsimp only
  split
  case isTrue =>
    refine ofNumber_append.mpr ⟨ofNumber_append.mpr ⟨htake 1, ?_⟩, ofNumber_exponentText _⟩
    split
    case isTrue  => decide
    case isFalse => exact ofNumber_append.mpr ⟨by decide, hdrop 1⟩
  case isFalse =>
    split
    case isTrue =>
      exact ofNumber_append.mpr ⟨ofNumber_append.mpr ⟨by decide, hzeros _⟩, ofNumber_digits h⟩
    case isFalse =>
      split
      case isTrue =>
        exact ofNumber_append.mpr ⟨ofNumber_append.mpr ⟨htake _, by decide⟩, hdrop _⟩
      case isFalse =>
        exact ofNumber_append.mpr
          ⟨ofNumber_append.mpr ⟨ofNumber_digits h, hzeros _⟩, by decide⟩

theorem ofNumber_floatText (x : Binary64) : OfNumber (floatText x) := by
  have hsign (neg : Bool) : OfNumber (Binary64.written.sign neg) := by
    revert neg
    decide
  unfold floatText
  split
  case h_1 | h_2 | h_3 => decide
  case h_4 =>
    unfold Binary64.toText Binary64.written
    split
    case h_1 => decide
    case h_2 => exact ofNumber_append.mpr ⟨hsign _, by decide⟩
    case h_3 =>
      exact ofNumber_append.mpr ⟨ofNumber_append.mpr ⟨hsign _, by decide⟩, by decide⟩
    case h_4 m e _ =>
      refine ofNumber_append.mpr ⟨hsign _, ofNumber_layout (fun c hc => ?_) _⟩
      have hmem := (List.dropWhile_sublist _).subset (List.mem_reverse.mp hc)
      exact isDigit_of_mem_toDigits c (List.mem_reverse.mp hmem)

end Texts

-- A number that is read from what is written of it. For finite numbers that is a property of the
-- digits that are written, which is not looked into here.
def Rereads (x : Binary64) : Prop :=
  parse? ((float x).indented .ascii) = some (.float x)

section Rereads

variable {x : Binary64} {s r rest : List Char} {n : Nat}

theorem isSpace_eq_false {c : Char} (h : isNumberChar c) : isSpace c = false := by
  by_contra hs
  simp only [isSpace, Bool.not_eq_false, Bool.or_eq_true, beq_iff_eq] at hs
  obtain ((rfl | rfl) | rfl) | rfl := hs <;> cases h

theorem skip_eq_self (h : ∀ c ∈ s, isNumberChar c) : skip s = s := by
  cases s
  case nil       => rfl
  case cons c s =>
    exact List.dropWhile_cons_of_neg (by simp [isSpace_eq_false (h c List.mem_cons_self)])

theorem number?_of_head {negative : Bool} {v : Json} (hr : Delimited rest)
    (h : number? negative s = some (v, [])) : 
    (∃ c ∈ (s ++ rest).head?, c.isDigit) ∧ number? negative (s ++ rest) = some (v, rest) := by
  have ⟨⟨c, hc, hd⟩, _⟩ := number?_eq_some h
  refine ⟨⟨c, ?_, hd⟩, by rw [number?_append hr, h]; rfl⟩
  obtain ⟨s, rfl⟩ := List.head?_eq_some_iff.mp hc
  rfl

theorem value?_float (hs : ∀ c ∈ s, isNumberChar c) (hr : Delimited rest)
    (h : value? (n + 1) s = some (.float x, r)) (hend : skip r = []) (m : Nat) :
    value? (m + 1) (s ++ rest) = some (.float x, rest) := by
  have hnil {t : List Char} (ht : ∀ c ∈ t, isNumberChar c) (he : skip t = []) : t = [] :=
    skip_eq_self ht ▸ he
  unfold value? at h
  split at h
  case h_1 => cases hs _ List.mem_cons_self
  case h_2 => cases hs _ List.mem_cons_self
  case h_3 => cases hs _ List.mem_cons_self
  case h_4 => cases h
  case h_5 => cases h
  case h_6 => cases h
  case h_7 =>
    cases h
    obtain rfl := hnil (fun c hc => hs c (by simp [hc])) hend
    rfl
  case h_8 =>
    cases h
    obtain rfl := hnil (fun c hc => hs c (by simp [hc])) hend
    rfl
  case h_9 =>
    cases h
    obtain rfl := hnil (fun c hc => hs c (by simp [hc])) hend
    rfl
  case h_10 t _ =>
    have hmem := (number?_eq_some h).2.subset
    obtain rfl := hnil (fun c hc => hs c (List.mem_cons_of_mem _ (hmem hc))) hend
    have ⟨hd, hn⟩ := number?_of_head hr h
    exact (value?_digit hd).2.trans hn
  case h_11 =>
    obtain rfl := hnil (fun c hc => hs c ((number?_eq_some h).2.subset hc)) hend
    have ⟨hd, hn⟩ := number?_of_head hr h
    exact (value?_digit hd).1.trans hn

theorem Rereads.value? (h : Rereads x) (hr : Delimited rest) (n : Nat) :
    Json.value? (n + 1) ((floatText x).toList ++ rest) = some (.float x, rest) := by
  have hs := ofNumber_floatText x
  have h : parse? (floatText x) = some (.float x) := h
  unfold parse? at h
  rw [skip_eq_self hs] at h
  dsimp only at h
  split at h
  case h_2 => cases h
  case h_1 hv =>
    split at h
    case isFalse => cases h
    case isTrue he =>
      cases h
      exact value?_float hs hr hv (List.isEmpty_iff.mp he) n

end Rereads

end ShellArgs.Json
