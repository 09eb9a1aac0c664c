import Mathlib.Data.List.Basic
import Mathlib.Data.Nat.Digits.Defs
import ShellArgs.Decimal.Literal
import ShellArgs.Proofs.Decimal.Rounding
import ShellArgs.Proofs.Directive.Shapes

namespace ShellArgs.Decimal

open Text (digitValue? digitsValue)
open Directive (dropWhile_run)

-- Digits that go on, each with at most one underscore before it.
inductive Further : List Char → List Nat → Prop
  | nil : Further [] []
  | digit {c : Char} {d : Nat} {s : List Char} {ds : List Nat} (hc : digitValue? c = some d)
      (h : Further s ds) : Further (c :: s) (d :: ds)
  | spaced {c : Char} {d : Nat} {s : List Char} {ds : List Nat} (hc : digitValue? c = some d)
      (h : Further s ds) : Further ('_' :: c :: s) (d :: ds)

-- One digit or more, with single underscores between them.
inductive Digits : List Char → List Nat → Prop
  | intro {c : Char} {d : Nat} {s : List Char} {ds : List Nat} (hc : digitValue? c = some d)
      (h : Further s ds) : Digits (c :: s) (d :: ds)

-- What digits stand for, the most significant one first.
def value (ds : List Nat) : Nat :=
  Nat.ofDigits 10 ds.reverse

def signed (negative : Bool) (n : Nat) : Int :=
  if negative then -n else n

-- A text after a sign, or without one.
inductive Signed : Bool → List Char → List Char → Prop
  | minus {s : List Char} : Signed true s ('-' :: s)
  | plus {s : List Char} : Signed false s ('+' :: s)
  | none {s : List Char} : Signed false s s

-- Something with blanks around it and a sign before it.
inductive Padded {α : Type} (P : Bool → List Char → α → Prop) : List Char → α → Prop
  | intro {negative : Bool} {left body core right : List Char} {v : α}
      (hl : ∀ c ∈ left, isPadding c) (hr : ∀ c ∈ right, isPadding c)
      (hs : Signed negative body core) (h : P negative body v) : Padded P (left ++ core ++ right) v

-- An integer with no more digits than are read.
inductive IntBody (negative : Bool) : List Char → Int → Prop
  | intro {s : List Char} {ds : List Nat} (h : Digits s ds) (hmost : ds.length ≤ mostDigits) :
      IntBody negative s (signed negative (value ds))

-- Digits, or none.
inductive Whole : List Char → List Nat → Prop
  | none : Whole [] []
  | some {s : List Char} {ds : List Nat} (h : Digits s ds) : Whole s ds

-- What follows the point, or neither.
inductive Places : List Char → List Nat → Prop
  | none : Places [] []
  | point {s : List Char} {ds : List Nat} (h : Whole s ds) : Places ('.' :: s) ds

inductive Exponent : List Char → Int → Prop
  | none : Exponent [] 0
  | some {c : Char} {s core : List Char} {ds : List Nat} {negative : Bool} (hc : c = 'e' ∨ c = 'E')
      (hs : Signed negative s core) (h : Digits s ds) :
      Exponent (c :: core) (signed negative (value ds))

-- Digits before and behind a point, of which there is one at least, and the power of ten that
-- they are multiplied by together.
inductive Fraction : List Char → Nat → Int → Prop
  | intro {w p x : List Char} {ds ps : List Nat} {k : Int} (hw : Whole w ds) (hp : Places p ps)
      (hx : Exponent x k) (hne : ds ++ ps ≠ []) :
      Fraction (w ++ (p ++ x)) (value (ds ++ ps)) (k - ps.length)

inductive FloatBody (negative : Bool) : List Char → Binary64 → Prop
  | infinite {s : List Char} (h : s.map Char.toLower ∈ ["inf".toList, "infinity".toList]) :
      FloatBody negative s (.infinite negative)
  | notANumber {s : List Char} (h : s.map Char.toLower = "nan".toList) :
      FloatBody negative s .notANumber
  | fraction {s : List Char} {n : Nat} {k : Int} {x : Binary64} (h : Fraction s n k)
      (hx : Binary64.Rounds ((n : ℚ) * 10 ^ k) negative x) : FloatBody negative s x

variable {c : Char} {d n : Nat} {ds ps : List Nat} {s t rest : List Char} {negative : Bool} {k : Int}

theorem digitsValue_eq : digitsValue ds = value ds := by
  rw [value, Nat.ofDigits_eq_foldr, List.foldr_reverse, digitsValue]
  simp only [Nat.cast_id, add_comm]

section Reading

theorem digitValue?_underscore : digitValue? '_' = none := by
  decide

theorem ne_underscore (h : digitValue? c = some d) : c ≠ '_' := by
  rintro rfl
  rw [digitValue?_underscore] at h
  cases h

-- No digit comes next.
def Stops (s : List Char) : Prop :=
  moreDigits s = ([], s)

theorem moreDigits_digit (hc : digitValue? c = some d) :
    moreDigits (c :: s) = (d :: (moreDigits s).1, (moreDigits s).2) := by
  have hne := ne_underscore hc
  rw [moreDigits.eq_def]
  split
  case h_1 h => exact absurd (List.cons.inj h).1 hne
  case h_2 h =>
    obtain ⟨rfl, rfl⟩ := List.cons.inj h
    simp [hc, Prod.map]
  case h_3 h => cases h

theorem moreDigits_spaced (hc : digitValue? c = some d) :
    moreDigits ('_' :: c :: s) = (d :: (moreDigits s).1, (moreDigits s).2) := by
  rw [moreDigits]
  simp [hc, Prod.map]

theorem Further.moreDigits (h : Further t ds) (hs : Stops rest) :
    moreDigits (t ++ rest) = (ds, rest) := by
  induction h with
  | nil            => exact hs
  | digit hc _ hi  => rw [List.cons_append, moreDigits_digit hc, hi]
  | spaced hc _ hi => rw [List.cons_append, List.cons_append, moreDigits_spaced hc, hi]

theorem further_moreDigits (s : List Char) :
    ∃ t, s = t ++ (moreDigits s).2 ∧ Further t (moreDigits s).1 := by
  fun_induction Decimal.moreDigits s with
  | case1 c s d hc hi =>
    obtain ⟨t, hs, ht⟩ := hi
    exact ⟨'_' :: c :: t, by simpa using hs, .spaced hc ht⟩
  | case2 => exact ⟨[], rfl, .nil⟩
  | case3 c s _ d hc hi =>
    obtain ⟨t, hs, ht⟩ := hi
    exact ⟨c :: t, by simpa using hs, .digit hc ht⟩
  | case4 => exact ⟨[], rfl, .nil⟩
  | case5 => exact ⟨[], rfl, .nil⟩

-- What may follow digits, and never starts with any.
def Opens (s : List Char) : Prop :=
  ∀ c ∈ s.head?, c = '.' ∨ c = 'e' ∨ c = 'E'

theorem Opens.unstarted (h : Opens (c :: s)) : digitValue? c = none ∧ c ≠ '_' := by
  rcases h c rfl with rfl | rfl | rfl
  all_goals decide

theorem Opens.stops (h : Opens s) : Stops s := by
  cases s with
  | nil       => simp [Stops, moreDigits]
  | cons c s  =>
    have ⟨hc, hne⟩ := h.unstarted
    rw [Stops, moreDigits.eq_def]
    split
    case h_1 he => exact absurd (List.cons.inj he).1 hne
    case h_2 he =>
      obtain ⟨rfl, rfl⟩ := List.cons.inj he
      simp [hc]
    case h_3 he => cases he

theorem digits_of_ne (h : ∀ t, s ≠ '_' :: t) : digits s = moreDigits s := by
  unfold digits
  split
  case h_1 => exact absurd rfl (h _)
  case h_2 => rfl

theorem Digits.digits (h : Digits t ds) (hs : Stops rest) : digits (t ++ rest) = (ds, rest) := by
  cases h with
  | @intro c d s ds hc h =>
    have hne : ∀ t, c :: s ++ rest ≠ '_' :: t := fun t he => ne_underscore hc (List.cons.inj he).1
    rw [digits_of_ne hne, List.cons_append, moreDigits_digit hc, h.moreDigits hs]

theorem Whole.digits (h : Whole t ds) (hs : Opens rest) : Decimal.digits (t ++ rest) = (ds, rest) := by
  cases h with
  | some h => exact h.digits hs.stops
  | none   =>
    have hne : ∀ t, rest ≠ '_' :: t := by
      rintro t rfl
      exact hs.unstarted.2 rfl
    rw [List.nil_append, digits_of_ne hne]
    exact hs.stops

theorem whole_digits (s : List Char) :
    ∃ t, s = t ++ (digits s).2 ∧ Whole t (digits s).1 := by
  unfold digits
  split
  case h_1 => exact ⟨[], rfl, .none⟩
  case h_2 hne =>
    obtain ⟨t, hs, ht⟩ := further_moreDigits s
    refine ⟨t, hs, ?_⟩
    generalize (moreDigits s).1 = ds at ht
    cases ht with
    | nil         => exact .none
    | digit hc h  => exact .some (.intro hc h)
    | spaced hc h => exact absurd hs (hne _)

theorem Whole.digits_of_ne_nil (h : Whole t ds) (hne : ds ≠ []) : Digits t ds := by
  cases h with
  | none   => exact absurd rfl hne
  | some h => exact h

-- A whole text of digits.
theorem digits_eq_iff : digits s = (ds, []) ↔ Whole s ds := by
  constructor
  case mp =>
    intro h
    have ⟨t, hs, ht⟩ := whole_digits s
    rw [h, List.append_nil] at hs
    rwa [h, ← hs] at ht
  case mpr =>
    intro h
    have hend : Opens [] := by simp [Opens]
    simpa using h.digits hend

end Reading

section Signs

theorem signed_sign (s : List Char) : Signed (sign s).1 (sign s).2 s := by
  unfold sign
  split
  case h_1 => exact .minus
  case h_2 => exact .plus
  case h_3 => exact .none

theorem Signed.sign (h : Signed negative t s) (ht : t.head? ≠ some '-' ∧ t.head? ≠ some '+') :
    sign s = (negative, t) := by
  cases h with
  | minus => rfl
  | plus  => rfl
  | none  =>
    unfold Decimal.sign
    split
    case h_1 => simp at ht
    case h_2 => simp at ht
    case h_3 => rfl

end Signs

section Blanks

-- The digits of a script have no blanks among them.
theorem zeros_apart : ∀ z ∈ Text.zeros, z = 0x30 ∨ 0x660 ≤ z ∧ z + 10 ≤ 0x1680 ∨
    0x1681 ≤ z ∧ z + 10 ≤ 0x2000 ∨ 0x3001 ≤ z := by
  decide

theorem digit_apart (h : digitValue? c = some d) : 0x30 ≤ c.toNat ∧ c.toNat < 0x3A ∨
    0x660 ≤ c.toNat ∧ c.toNat < 0x1680 ∨ 0x1681 ≤ c.toNat ∧ c.toNat < 0x2000 ∨
    0x3001 ≤ c.toNat := by
  obtain ⟨z, hz, h⟩ := List.exists_of_findSome?_eq_some h
  split at h
  case isTrue hc => have := zeros_apart z hz; omega
  case isFalse   => cases h

theorem padding_apart (h : isPadding c) : c.toNat ≤ 0x20 ∨ c.toNat = 0x85 ∨ c.toNat = 0xA0 ∨
    c.toNat = 0x1680 ∨ 0x2000 ≤ c.toNat ∧ c.toNat ≤ 0x3000 := by
  simp only [isPadding, Text.isBlank, Bool.and_eq_true, Bool.or_eq_true, decide_eq_true_eq,
    beq_iff_eq] at h
  omega

-- Only capitals have another small letter.
theorem toLower_eq_self (h : c.toNat < 0x41 ∨ 0x5A < c.toNat) : c.toLower = c := by
  unfold Char.toLower
  refine dif_neg fun hc => ?_
  have hlow : 0x41 ≤ c.toNat := hc.1
  have hhigh : c.toNat ≤ 0x5A := hc.2
  omega

theorem isPadding_digit (h : digitValue? c = some d) : isPadding c = false := by
  by_contra hp
  have := digit_apart h
  have := padding_apart (Bool.not_eq_false _ ▸ hp)
  omega

theorem isPadding_of_toLower (h : isPadding c.toLower = false) : isPadding c = false := by
  by_contra hp
  have hp : isPadding c := by simpa using hp
  have := padding_apart hp
  rw [toLower_eq_self (by omega)] at h
  rw [h] at hp
  cases hp

theorem unpad_eq {left core right : List Char} (hl : ∀ c ∈ left, isPadding c)
    (hr : ∀ c ∈ right, isPadding c) (hne : core ≠ []) (hcore : ∀ c ∈ core, isPadding c = false) :
    unpad (left ++ core ++ right) = core := by
  have hstart : ∀ c ∈ (core ++ right).head?, isPadding c = false := by
    rw [List.head?_append_of_ne_nil _ hne]
    exact fun c hc => hcore c (List.mem_of_mem_head? hc)
  have hend : ∀ c ∈ core.reverse.head?, isPadding c = false := fun c hc =>
    hcore c (List.mem_reverse.mp (List.mem_of_mem_head? hc))
  have hr : ∀ c ∈ right.reverse, isPadding c := by simpa using hr
  rw [unpad, List.append_assoc, dropWhile_run hl hstart, List.reverse_append, dropWhile_run hr hend,
    List.reverse_reverse]

theorem exists_unpad (s : List Char) : ∃ left right, s = left ++ unpad s ++ right ∧
    (∀ c ∈ left, isPadding c) ∧ ∀ c ∈ right, isPadding c := by
  have hsplit (t : List Char) : t.takeWhile isPadding ++ t.dropWhile isPadding = t :=
    List.takeWhile_append_dropWhile
  refine ⟨s.takeWhile isPadding, ((s.dropWhile isPadding).reverse.takeWhile isPadding).reverse, ?_,
    fun c hc => List.mem_takeWhile_imp hc, fun c hc =>
      List.mem_takeWhile_imp (List.mem_reverse.mp hc)⟩
  rw [unpad, List.append_assoc, ← List.reverse_append, hsplit, List.reverse_reverse, hsplit]

-- A number behind its sign, which takes neither another sign nor a blank for its own.
structure Clean (s : List Char) : Prop where
  nonempty : s ≠ []
  unsigned : s.head? ≠ some '-' ∧ s.head? ≠ some '+'
  unpadded : ∀ c ∈ s, isPadding c = false

theorem Signed.core {core : List Char} (h : Signed negative t core) (ht : Clean t) :
    core ≠ [] ∧ ∀ c ∈ core, isPadding c = false := by
  have hsign : isPadding '-' = false ∧ isPadding '+' = false := by decide
  cases h with
  | none  => exact ⟨ht.nonempty, ht.unpadded⟩
  | minus => exact ⟨List.cons_ne_nil _ _, List.forall_mem_cons.mpr ⟨hsign.1, ht.unpadded⟩⟩
  | plus  => exact ⟨List.cons_ne_nil _ _, List.forall_mem_cons.mpr ⟨hsign.2, ht.unpadded⟩⟩

theorem padded_iff {α : Type} {P : Bool → List Char → α → Prop} {v : α}
    (hP : ∀ {negative : Bool} {t : List Char} {v : α}, P negative t v → Clean t) :
    Padded P s v ↔ P (sign (unpad s)).1 (sign (unpad s)).2 v := by
  constructor
  case mp =>
    rintro ⟨hl, hr, hs, h⟩
    have hclean := hP h
    have ⟨hne, hcore⟩ := hs.core hclean
    rw [unpad_eq hl hr hne hcore, hs.sign hclean.unsigned]
    exact h
  case mpr =>
    intro h
    have ⟨left, right, hs, hl, hr⟩ := exists_unpad s
    rw [hs]
    exact .intro hl hr (signed_sign _) h

end Blanks

section Bodies

theorem ne_sign_of_digit (h : digitValue? c = some d) : c ≠ '-' ∧ c ≠ '+' := by
  have hsigns : digitValue? '-' = none ∧ digitValue? '+' = none := by decide
  constructor
  case left =>
    rintro rfl
    cases hsigns.1.symm.trans h
  case right =>
    rintro rfl
    cases hsigns.2.symm.trans h

theorem Further.unpadded (h : Further s ds) : ∀ c ∈ s, isPadding c = false := by
  have hscore : isPadding '_' = false := by decide
  induction h with
  | nil            => simp
  | digit hc _ hi  => exact List.forall_mem_cons.mpr ⟨isPadding_digit hc, hi⟩
  | spaced hc _ hi =>
    exact List.forall_mem_cons.mpr ⟨hscore, List.forall_mem_cons.mpr ⟨isPadding_digit hc, hi⟩⟩

theorem Digits.clean (h : Digits s ds) : Clean s := by
  cases h with
  | intro hc h =>
    have ⟨hminus, hplus⟩ := ne_sign_of_digit hc
    exact ⟨List.cons_ne_nil _ _, by simp [hminus, hplus],
      List.forall_mem_cons.mpr ⟨isPadding_digit hc, h.unpadded⟩⟩

theorem Whole.unpadded (h : Whole s ds) : ∀ c ∈ s, isPadding c = false := by
  cases h with
  | none   => simp
  | some h => exact h.clean.unpadded

theorem Places.unpadded (h : Places s ds) : ∀ c ∈ s, isPadding c = false := by
  have hpoint : isPadding '.' = false := by decide
  cases h with
  | none    => simp
  | point h => exact List.forall_mem_cons.mpr ⟨hpoint, h.unpadded⟩

theorem Exponent.unpadded (h : Exponent s k) : ∀ c ∈ s, isPadding c = false := by
  have hletter : isPadding 'e' = false ∧ isPadding 'E' = false := by decide
  cases h with
  | none => simp
  | some hc hs h =>
    refine List.forall_mem_cons.mpr ⟨?_, (hs.core h.clean).2⟩
    rcases hc with rfl | rfl
    exacts [hletter.1, hletter.2]

-- A fraction starts with a digit or the point.
theorem Fraction.head (h : Fraction s n k) :
    ∃ c ∈ s.head?, c = '.' ∨ ∃ d, digitValue? c = some d := by
  obtain ⟨hw, hp, hx, hne⟩ := h
  cases hw with
  | some h => cases h with | intro hc h => exact ⟨_, rfl, .inr ⟨_, hc⟩⟩
  | none   =>
    cases hp with
    | none    => exact absurd rfl hne
    | point h => exact ⟨_, rfl, .inl rfl⟩

theorem Fraction.clean (h : Fraction s n k) : Clean s := by
  have ⟨c, hhead, hc⟩ := h.head
  refine ⟨?nonempty, ?unsigned, ?unpadded⟩
  case nonempty =>
    rintro rfl
    cases hhead
  case unsigned =>
    rw [Option.mem_def.mp hhead]
    rcases hc with rfl | ⟨d, hc⟩
    case inl => decide
    case inr => simpa using ne_sign_of_digit hc
  case unpadded =>
    obtain ⟨hw, hp, hx, hne⟩ := h
    simp only [List.forall_mem_append]
    exact ⟨hw.unpadded, hp.unpadded, hx.unpadded⟩

-- The words for the numbers that are not finite.
def words : List (List Char) :=
  ["inf".toList, "infinity".toList, "nan".toList]

theorem head_of_mem_words : ∀ w ∈ words, w.head? = some 'i' ∨ w.head? = some 'n' := by
  decide

theorem all_of_mem_words : ∀ w ∈ words, w.all fun c => !isPadding c := by
  decide

theorem clean_of_mem_words (h : s.map Char.toLower ∈ words) : Clean s := by
  have hhead := head_of_mem_words _ h
  rw [List.head?_map] at hhead
  refine ⟨?nonempty, ?unsigned, ?unpadded⟩
  case nonempty =>
    rintro rfl
    simp at hhead
  case unsigned =>
    constructor
    all_goals
      intro hs
      rw [hs] at hhead
      exact absurd hhead (by decide)
  case unpadded =>
    intro c hc
    have hall := List.all_eq_true.mp (all_of_mem_words _ h) c.toLower (List.mem_map_of_mem hc)
    exact isPadding_of_toLower (by simpa using hall)

theorem Fraction.not_mem_words (h : Fraction s n k) : s.map Char.toLower ∉ words := by
  have hletters : digitValue? 'i' = none ∧ digitValue? 'n' = none := by decide
  intro hw
  have ⟨c, hhead, hc⟩ := h.head
  have hlower : c.toLower = c := by
    rcases hc with rfl | ⟨d, hc⟩
    case inl => rfl
    case inr =>
      have := digit_apart hc
      exact toLower_eq_self (by omega)
  have hletter := head_of_mem_words _ hw
  rw [List.head?_map, Option.mem_def.mp hhead, Option.map_some, hlower, Option.some.injEq,
    Option.some.injEq] at hletter
  rcases hletter with rfl | rfl
  all_goals
    obtain hc | ⟨d, hc⟩ := hc
    case inl => cases hc
    case inr => simp [hletters] at hc

end Bodies

section Readers

-- A reader that expects digits and nothing behind them.
theorem ofDigits_eq_some_iff {α : Type} {g : List Nat → Option α} {v : α} :
    (match digits t with
      | ([], _)     => none
      | (ds, [])    => g ds
      | (_, _ :: _) => none) = some v ↔ ∃ ds, Digits t ds ∧ g ds = some v := by
  constructor
  case mp =>
    intro h
    split at h
    case h_1 => cases h
    case h_3 => cases h
    case h_2 ds hne hds => exact ⟨ds, (digits_eq_iff.mp hds).digits_of_ne_nil hne, h⟩
  case mpr =>
    rintro ⟨ds, hds, h⟩
    rw [digits_eq_iff.mpr (.some hds)]
    cases hds
    exact h

theorem exponent?_eq_some_iff : exponent? s = some k ↔ Exponent s k := by
  constructor
  case mp =>
    intro h
    cases s with
    | nil      =>
      cases h
      exact .none
    | cons c t =>
      rw [exponent?, Option.ite_none_right_eq_some] at h
      have ⟨hc, h⟩ := h
      have ⟨ds, hds, h⟩ := ofDigits_eq_some_iff.mp h
      cases h
      rw [digitsValue_eq]
      exact .some hc (signed_sign t) hds
  case mpr =>
    intro h
    cases h with
    | none          => rfl
    | some hc hs h  =>
      rw [exponent?, if_pos hc, hs.sign h.clean.unsigned]
      refine ofDigits_eq_some_iff.mpr ⟨_, h, ?_⟩
      rw [digitsValue_eq]
      rfl

-- The digits behind a point and the rest of the text.
def placesOf : List Char → List Nat × List Char
  | '.' :: s => digits s
  | s        => ([], s)

theorem places_placesOf (s : List Char) :
    ∃ t, s = t ++ (placesOf s).2 ∧ Places t (placesOf s).1 := by
  unfold placesOf
  split
  case h_1 s =>
    obtain ⟨t, hs, ht⟩ := whole_digits s
    exact ⟨'.' :: t, congrArg ('.' :: ·) hs, .point ht⟩
  case h_2 => exact ⟨[], rfl, .none⟩

theorem Exponent.opens (h : Exponent s k) : Opens s := by
  cases h with
  | none         => simp [Opens]
  | some hc _ _  =>
    rintro c ⟨⟩
    exact .inr hc

theorem Places.opens (h : Places t ps) (hx : Exponent rest k) : Opens (t ++ rest) := by
  cases h with
  | none    => exact hx.opens
  | point _ =>
    rintro c ⟨⟩
    exact .inl rfl

theorem Places.placesOf (h : Places t ps) (hx : Exponent rest k) :
    placesOf (t ++ rest) = (ps, rest) := by
  cases h with
  | point h => exact h.digits hx.opens
  | none    =>
    cases hx with
    | none        => rfl
    | some hc _ _ => rcases hc with rfl | rfl <;> rfl

theorem fraction?_eq (negative : Bool) (s : List Char) : fraction? negative s =
    if (digits s).1.isEmpty && (placesOf (digits s).2).1.isEmpty then none
    else (exponent? (placesOf (digits s).2).2).map fun x =>
      .ofDecimal negative (digitsValue ((digits s).1 ++ (placesOf (digits s).2).1))
        (x - (placesOf (digits s).2).1.length) := by
  rfl

theorem fraction?_eq_some_iff {x : Binary64} : fraction? negative s = some x ↔
    ∃ n k, Fraction s n k ∧ x = .ofDecimal negative n k := by
  rw [fraction?_eq]
  constructor
  case mp =>
    intro h
    obtain ⟨w, hs, hw⟩ := whole_digits s
    obtain ⟨p, ht, hp⟩ := places_placesOf (digits s).2
    rw [Option.ite_none_left_eq_some, Option.map_eq_some_iff] at h
    obtain ⟨hne, k, hk, rfl⟩ := h
    have hfraction := Fraction.intro hw hp (exponent?_eq_some_iff.mp hk) (by simpa using hne)
    rw [← ht, ← hs] at hfraction
    exact ⟨_, _, hfraction, by rw [digitsValue_eq]⟩
  case mpr =>
    rintro ⟨n, k, ⟨hw, hp, hx, hne⟩, rfl⟩
    rw [hw.digits (hp.opens hx), hp.placesOf hx, exponent?_eq_some_iff.mpr hx, digitsValue_eq,
      if_neg (by simpa using hne)]
    rfl

-- What is behind the sign of an integer.
def intBody? (negative : Bool) (s : List Char) : Option Int :=
  match digits s with
  | ([], _)     => none
  | (ds, [])    =>
    if mostDigits < ds.length then none
    else some (if negative then -digitsValue ds else digitsValue ds)
  | (_, _ :: _) => none

theorem intBody?_eq_some_iff {n : Int} : intBody? negative s = some n ↔ IntBody negative s n := by
  refine ofDigits_eq_some_iff.trans ⟨?_, ?_⟩
  case refine_1 =>
    rintro ⟨ds, hds, h⟩
    rw [Option.ite_none_left_eq_some, digitsValue_eq] at h
    obtain ⟨hmost, h⟩ := h
    cases h
    exact .intro hds (not_lt.mp hmost)
  case refine_2 =>
    rintro ⟨hds, hmost⟩
    refine ⟨_, hds, ?_⟩
    rw [if_neg (not_lt.mpr hmost), digitsValue_eq]
    rfl

theorem IntBody.clean {n : Int} (h : IntBody negative s n) : Clean s := by
  cases h with
  | intro hds _ => exact hds.clean

theorem readInt?_eq_some_iff {n : Int} : readInt? s = some n ↔ Padded IntBody s n := by
  rw [padded_iff IntBody.clean, ← intBody?_eq_some_iff]
  rfl

example : readInt? " -1_000 ".toList = some (-1000) ∧ readInt? "1__000".toList = none := by
  decide

theorem FloatBody.clean {x : Binary64} (h : FloatBody negative s x) : Clean s := by
  cases h with
  | infinite h   => exact clean_of_mem_words (List.mem_of_mem_dropLast h)
  | notANumber h => exact clean_of_mem_words (by simp [words, h])
  | fraction h _ => exact h.clean

-- What is behind the sign of a number.
def floatBody? (negative : Bool) (s : List Char) : Option Binary64 :=
  match String.ofList (s.map Char.toLower) with
  | "inf" | "infinity" => some (.infinite negative)
  | "nan"              => some .notANumber
  | _                  => fraction? negative s

theorem floatBody?_eq_fraction? (h : s.map Char.toLower ∉ words) :
    floatBody? negative s = fraction? negative s := by
  unfold floatBody?
  split
  case h_1 hw => exact absurd (by simp [words, ← hw]) h
  case h_2 hw => exact absurd (by simp [words, ← hw]) h
  case h_3 hw => exact absurd (by simp [words, ← hw]) h
  case h_4    => rfl

theorem floatBody?_eq_some_iff {x : Binary64} :
    floatBody? negative s = some x ↔ FloatBody negative s x := by
  constructor
  case mp =>
    unfold floatBody?
    intro h
    split at h
    case h_1 hw =>
      cases h
      exact .infinite (by simp [← hw])
    case h_2 hw =>
      cases h
      exact .infinite (by simp [← hw])
    case h_3 hw =>
      cases h
      exact .notANumber (by simp [← hw])
    case h_4 =>
      have ⟨n, k, hf, hx⟩ := fraction?_eq_some_iff.mp h
      exact .fraction hf (hx ▸ Binary64.ofDecimal_rounds negative n k)
  case mpr =>
    intro h
    cases h with
    | infinite h =>
      rw [List.mem_pair] at h
      rcases h with h | h
      all_goals
        rw [floatBody?, h]
        rfl
    | notANumber h =>
      rw [floatBody?, h]
      rfl
    | @fraction n k _ h hx =>
      have hpos : (0 : ℚ) ≤ n * 10 ^ k := by positivity
      rw [floatBody?_eq_fraction? h.not_mem_words]
      exact fraction?_eq_some_iff.mpr ⟨n, k, h, hx.eq hpos (Binary64.ofDecimal_rounds negative n k)⟩

theorem readFloat?_eq_some_iff {x : Binary64} : readFloat? s = some x ↔ Padded FloatBody s x := by
  rw [padded_iff FloatBody.clean, ← floatBody?_eq_some_iff]
  rfl

end Readers

end ShellArgs.Decimal
