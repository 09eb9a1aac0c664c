import ShellArgs.Proofs.Json.Escaping

-- Halves of pairs in strings. A half that is written comes back unless it makes a pair with what
-- follows it, and no pair is left in what is read. So nothing of a string gets lost.

namespace ShellArgs.Json

section Written

variable {cs : Charset} {p : CodePoint} {u n : Nat} {s t r : List Char} {body : List CodePoint}

-- The text does not go on with the low half of a pair.
def Apart (s : List Char) : Prop :=
  ∀ r, s = '\\' :: 'u' :: r → ∃ v r', unit? r = some (v, r') ∧ isLowUnit v = false

theorem apart_of_ne {c : Char} (h : c ≠ '\\' ∨ s.head? ≠ some 'u') : Apart (c :: s) := by
  rintro r hr
  cases hr
  simp at h

theorem apart_hex4 (hu : u < 0x10000) (hl : isLowUnit u = false) (s : List Char) :
    Apart (hex4 u ++ s) := by
  intro r hr
  rw [hex4_append] at hr
  cases hr
  exact ⟨u, s, unit?_hex4 hu s, hl⟩

theorem apart_escape (cs : Charset) (c : Char) (s : List Char) : Apart (escape cs c ++ s) := by
  unfold escape
  split
  case h_8 hslash _ _ _ _ _ =>
    have hlow := (not_isUnit c).2
    dsimp only
    split
    case isTrue hc => exact apart_hex4 (by omega) hlow s
    case isFalse =>
      split
      case isTrue => exact apart_of_ne (.inl hslash)
      case isFalse =>
        split
        case isTrue hc  => exact apart_hex4 hc hlow s
        case isFalse hc =>
          have hlt := toNat_lt c
          rw [List.append_assoc]
          exact apart_hex4 (by omega) (by simp [isLowUnit]; omega) _
  all_goals exact apart_of_ne (.inr (by simp))

theorem apart_escapePoint (h : p.isLow = false) (s : List Char) : Apart (escapePoint cs p ++ s) := by
  cases p with
  | char c => exact apart_escape cs c s
  | half n => exact apart_hex4 (by omega) (isLowUnit_half n ▸ h) s

theorem escapedUnit?_half {n : Fin 0x800} (h : (CodePoint.half n).isHigh → Apart s) :
    escapedUnit? ((hex4 (0xD800 + n)).drop 2 ++ s) = some (.half n, s) := by
  simp only [escapedUnit?, unit?_hex4 (by omega : 0xD800 + n.val < 0x10000), Option.bind_eq_bind,
    Option.bind_some, ofUnit_half, isHighUnit_half]
  split
  case isFalse => rfl
  case isTrue hhigh =>
    split
    case h_2 => rfl
    case h_1 r =>
      obtain ⟨v, r', hv, hlow⟩ := h hhigh r rfl
      simp [hv, hlow]

theorem stringBody_escapePoint (ha : p.isHigh → Apart s) (h : stringBody n s = some (body, r)) :
    stringBody (n + 1) (escapePoint cs p ++ s) = some (p :: body, r) := by
  cases p with
  | char c => exact stringBody_escape h
  | half n =>
    rw [escapePoint, hex4_append]
    exact stringBody_unit (escapedUnit?_half ha) h

theorem length_escapePoint_pos (cs : Charset) (p : CodePoint) : 0 < (escapePoint cs p).length := by
  cases p with
  | char c => exact length_escape_pos cs c
  | half n => exact Nat.succ_pos _

-- A text between quotes is read up to the closing one.
theorem stringBody_flatMap (cs : Charset) {ps : List CodePoint} (hp : CodePoint.hasPair ps = false)
    (r : List Char) (h : (ps.flatMap (escapePoint cs) ++ '"' :: r).length < n) :
    stringBody n (ps.flatMap (escapePoint cs) ++ '"' :: r) = some (ps, r) := by
  induction ps generalizing n
  case nil =>
    obtain ⟨n, rfl⟩ := Nat.exists_eq_add_of_le' (Nat.one_le_of_lt h)
    rfl
  case cons p ps hi =>
    obtain ⟨n, rfl⟩ := Nat.exists_eq_add_of_le' (Nat.one_le_of_lt h)
    have hpos := length_escapePoint_pos cs p
    rw [List.flatMap_cons, List.append_assoc] at h ⊢
    rw [List.length_append] at h
    cases ps
    case nil => exact stringBody_escapePoint (fun _ => apart_of_ne (.inl (by decide))) (hi rfl (by omega))
    case cons q ps =>
      obtain ⟨hq, hps⟩ := Bool.or_eq_false_iff.mp hp
      refine stringBody_escapePoint (fun hhigh => ?_) (hi hps (by omega))
      rw [List.flatMap_cons, List.append_assoc]
      exact apart_escapePoint (by simpa [hhigh] using hq) _

end Written

section Points

variable {ps : List CodePoint}

theorem hasPair_points (t : RawText) : CodePoint.hasPair t.points = false := by
  have hchars (cs : List Char) : CodePoint.hasPair (cs.map .char) = false := by
    induction cs with
    | nil => rfl
    | cons c cs hi =>
      cases cs
      case nil  => rfl
      case cons => exact hi
  cases t with
  | unicode s  => exact hchars s.toList
  | unpaired t => exact t.noPair

-- All points but those of Unicode texts have a half among them.
theorem exists_points (h : CodePoint.hasPair ps = false) : ∃ t : RawText, t.points = ps := by
  have hchars {ps : List CodePoint} (h : ps.any (·.char?.isNone) = false) :
      ∃ cs : List Char, cs.map .char = ps := by
    induction ps with
    | nil          => exact ⟨[], rfl⟩
    | cons p ps hi =>
      obtain ⟨hp, hps⟩ := Bool.or_eq_false_iff.mp h
      obtain ⟨cs, rfl⟩ := hi hps
      cases p with
      | char c => exact ⟨c :: cs, rfl⟩
      | half n => cases hp
  cases hhalf : ps.any (·.char?.isNone) with
  | true  => exact ⟨.unpaired ⟨ps, hhalf, h⟩, rfl⟩
  | false =>
    obtain ⟨cs, rfl⟩ := hchars hhalf
    exact ⟨.unicode (String.ofList cs), by simp [RawText.points]⟩

theorem ofPoints_points (t : RawText) : ofPoints t.points = .raw t := by
  cases t with
  | unpaired t => exact dif_pos ⟨t.half, t.noPair⟩
  | unicode s  =>
    have hchars : ¬ ((RawText.unicode s).points.any (·.char?.isNone) ∧
        CodePoint.hasPair (RawText.unicode s).points = false) := by
      simp [RawText.points, CodePoint.char?]
    rw [ofPoints, dif_neg hchars, RawText.points, List.filterMap_map]
    simp [CodePoint.char?, Function.comp_def, raw]

theorem nameOfPoints_unicode (s : String) : nameOfPoints (RawText.unicode s).points = s := by
  simp [nameOfPoints, RawText.points, CodePoint.char?, Function.comp_def]

end Points

section Read

variable {ps : List CodePoint} {p : CodePoint} {u n : Nat} {s t r : List Char}

theorem hasPair_cons (hp : p.isHigh → ∀ q ∈ ps.head?, q.isLow = false)
    (hps : CodePoint.hasPair ps = false) : CodePoint.hasPair (p :: ps) = false := by
  cases ps with
  | nil       => rfl
  | cons q ps =>
    refine Bool.or_eq_false_iff.mpr ⟨?_, hps⟩
    cases hhigh : p.isHigh
    case false => rfl
    case true  => exact hp hhigh q rfl

-- A unit, or else a character that a pair of units makes.
theorem exists_of_escapedUnit? (h : escapedUnit? t = some (p, s)) :
    (∃ u, unit? t = some (u, s) ∧ p = ofUnit u ∧ (isHighUnit u → Apart s)) ∨ ∃ c, p = .char c := by
  obtain ⟨⟨u, t⟩, hu, h⟩ := Option.bind_eq_some_iff.mp h
  dsimp only at h
  split at h
  case isFalse hhigh =>
    cases h
    exact .inl ⟨u, hu, rfl, fun hh => absurd hh hhigh⟩
  case isTrue =>
    split at h
    case h_2 hne =>
      cases h
      exact .inl ⟨u, hu, rfl, fun _ r hr => absurd hr (hne r)⟩
    case h_1 r =>
      split at h
      case h_2 => cases h
      case h_1 v r' hv =>
        split at h
        case isTrue =>
          cases h
          exact .inr ⟨_, rfl⟩
        case isFalse hlow =>
          cases h
          refine .inl ⟨u, hu, rfl, fun _ r'' hr => ?_⟩
          cases hr
          exact ⟨v, r', hv, eq_false_of_ne_true hlow⟩

-- The end of a string, or its next character or half.
theorem exists_of_stringBody (h : stringBody (n + 1) s = some (ps, r)) :
    ps = [] ∨ ∃ p qs t, ps = p :: qs ∧ stringBody n t = some (qs, r) ∧
      ((∃ c, p = .char c) ∨ ∃ t', s = '\\' :: 'u' :: t' ∧ escapedUnit? t' = some (p, t)) := by
  unfold stringBody at h
  split at h
  case h_1 => cases h
  case h_2 =>
    cases h
    exact .inl rfl
  case h_3 t' =>
    obtain ⟨⟨p, t⟩, hp, h⟩ := Option.bind_eq_some_iff.mp h
    obtain ⟨⟨qs, r⟩, hqs, h⟩ := Option.bind_eq_some_iff.mp h
    cases h
    exact .inr ⟨p, qs, t, rfl, hqs, .inr ⟨t', rfl, hp⟩⟩
  case h_4 t _ =>
    obtain ⟨c, _, h⟩ := Option.bind_eq_some_iff.mp h
    obtain ⟨⟨qs, r⟩, hqs, h⟩ := Option.bind_eq_some_iff.mp h
    cases h
    exact .inr ⟨.char c, qs, t, rfl, hqs, .inl ⟨c, rfl⟩⟩
  case h_5 c t _ _ _ =>
    split at h
    case isTrue => cases h
    case isFalse =>
      obtain ⟨⟨qs, r⟩, hqs, h⟩ := Option.bind_eq_some_iff.mp h
      cases h
      exact .inr ⟨.char c, qs, t, rfl, hqs, .inl ⟨c, rfl⟩⟩

theorem isLow_of_stringBody (ha : Apart s) (h : stringBody n s = some (p :: ps, r)) :
    p.isLow = false := by
  cases n with
  | zero   => cases h
  | succ n =>
    obtain hnil | ⟨p, qs, t, hcons, _, ⟨c, rfl⟩ | ⟨t', rfl, hp⟩⟩ := exists_of_stringBody h
    case inl         => cases hnil
    case inr.inl     =>
      cases hcons
      rfl
    case inr.inr =>
      cases hcons
      obtain ⟨v, _, hv, hlow⟩ := ha t' rfl
      obtain ⟨u, hu, rfl, _⟩ | ⟨c, rfl⟩ := exists_of_escapedUnit? hp
      case inl =>
        cases hu.symm.trans hv
        exact (isHalf_ofUnit _).2.trans hlow
      case inr => rfl

theorem hasPair_of_stringBody (h : stringBody n s = some (ps, r)) : CodePoint.hasPair ps = false := by
  induction n generalizing s ps with
  | zero      => cases h
  | succ n hi =>
    obtain rfl | ⟨p, qs, t, rfl, hqs, hp⟩ := exists_of_stringBody h
    case inl => rfl
    case inr =>
      refine hasPair_cons (fun hhigh q hq => ?_) (hi hqs)
      obtain ⟨qs, rfl⟩ := List.head?_eq_some_iff.mp hq
      obtain ⟨c, rfl⟩ | ⟨t', rfl, hp⟩ := hp
      case inl => cases hhigh
      case inr =>
        obtain ⟨u, _, rfl, ha⟩ | ⟨c, rfl⟩ := exists_of_escapedUnit? hp
        case inl => exact isLow_of_stringBody (ha ((isHalf_ofUnit u).1 ▸ hhigh)) hqs
        case inr => cases hhigh

-- What is read is a text, of which nothing is left out.
theorem exists_raw_of_stringBody (h : stringBody n s = some (ps, r)) :
    ∃ t : RawText, t.points = ps ∧ ofPoints ps = .raw t := by
  obtain ⟨t, rfl⟩ := exists_points (hasPair_of_stringBody h)
  exact ⟨t, rfl, ofPoints_points t⟩

end Read

end ShellArgs.Json
