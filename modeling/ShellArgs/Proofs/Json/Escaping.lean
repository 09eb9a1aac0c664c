import ShellArgs.Json.Printer
import ShellArgs.Json.Reader

-- Strings as they are written in JSON, and read again. Characters that are escaped come back from
-- the hexadecimal digits of their code units.

namespace ShellArgs.Json

section Units

variable {d u : Nat} {c : Char}

theorem hexValue?_digitChar (h : d < 16) : hexValue? (Nat.digitChar d) = some d := by
  revert d
  decide

theorem hex4_eq (h : u < 0x10000) : hex4 u = ['\\', 'u', Nat.digitChar (u / 16 / 16 / 16),
    Nat.digitChar (u / 16 / 16 % 16), Nat.digitChar (u / 16 % 16), Nat.digitChar (u % 16)] := by
  -- The first digits are zeros that fill up, or digits of the number.
  unfold hex4
  by_cases h₁ : u < 16
  case pos =>
    have hu : u / 16 = 0 := by omega
    rw [Nat.toDigits_of_lt_base h₁, hu, Nat.mod_eq_of_lt h₁]
    rfl
  rw [Nat.toDigits_of_base_le (by decide) (Nat.not_lt.mp h₁)]
  by_cases h₂ : u / 16 < 16
  case pos =>
    have hu : u / 16 / 16 = 0 := by omega
    rw [Nat.toDigits_of_lt_base h₂, hu, Nat.mod_eq_of_lt h₂]
    rfl
  rw [Nat.toDigits_of_base_le (by decide) (Nat.not_lt.mp h₂)]
  by_cases h₃ : u / 16 / 16 < 16
  case pos =>
    have hu : u / 16 / 16 / 16 = 0 := by omega
    rw [Nat.toDigits_of_lt_base h₃, hu, Nat.mod_eq_of_lt h₃]
    rfl
  rw [Nat.toDigits_of_base_le (by decide) (Nat.not_lt.mp h₃), Nat.toDigits_of_lt_base (by omega)]
  rfl

theorem hex4_append (u : Nat) (s : List Char) :
    hex4 u ++ s = '\\' :: 'u' :: ((hex4 u).drop 2 ++ s) :=
  rfl

theorem unit?_hex4 (h : u < 0x10000) (s : List Char) :
    unit? ((hex4 u).drop 2 ++ s) = some (u, s) := by
  have h₁ : hexValue? (Nat.digitChar (u / 16 / 16 / 16)) = some _ := hexValue?_digitChar (by omega)
  have h₂ : hexValue? (Nat.digitChar (u / 16 / 16 % 16)) = some _ := hexValue?_digitChar (by omega)
  have h₃ : hexValue? (Nat.digitChar (u / 16 % 16)) = some _ := hexValue?_digitChar (by omega)
  have h₄ : hexValue? (Nat.digitChar (u % 16)) = some _ := hexValue?_digitChar (by omega)
  simp only [hex4_eq h, List.drop_succ_cons, List.drop_zero, List.cons_append, List.nil_append,
    unit?, h₁, h₂, h₃, h₄, Option.bind_eq_bind, Option.bind_some, Option.pure_def]
  congr
  omega

theorem isHighUnit_half (n : Fin 0x800) : isHighUnit (0xD800 + n) = (CodePoint.half n).isHigh := by
  simp only [isHighUnit, CodePoint.isHigh, Nat.le_add_right, decide_true, Bool.true_and,
    decide_eq_decide, Fin.lt_def]
  change 0xD800 + n.val < 0xDC00 ↔ n.val < 0x400
  omega

theorem isLowUnit_half (n : Fin 0x800) : isLowUnit (0xD800 + n) = (CodePoint.half n).isLow := by
  have hn := n.isLt
  have hbound : 0xD800 + n.val < 0xE000 := by omega
  simp only [isLowUnit, CodePoint.isLow, hbound, decide_true, Bool.and_true, decide_eq_decide,
    Fin.le_def]
  change 0xDC00 ≤ 0xD800 + n.val ↔ 0x400 ≤ n.val
  omega

theorem exists_half (h : isHighUnit u || isLowUnit u) : ∃ n : Fin 0x800, u = 0xD800 + n := by
  simp only [isHighUnit, isLowUnit, Bool.or_eq_true, Bool.and_eq_true, decide_eq_true_eq] at h
  have hlt : u - 0xD800 < 0x800 := by omega
  exact ⟨⟨u - 0xD800, hlt⟩, by simp; omega⟩

theorem ofUnit_half (n : Fin 0x800) : ofUnit (0xD800 + n) = .half n := by
  have h : isHighUnit (0xD800 + n) || isLowUnit (0xD800 + n) := by
    rw [isHighUnit_half, isLowUnit_half]
    by_cases hn : n < 0x400
    case pos => simp [CodePoint.isHigh, hn]
    case neg => simp [CodePoint.isLow, Fin.not_lt.mp hn]
  have hmod : (0xD800 + n.val - 0xD800) % 0x800 = n := by omega
  rw [ofUnit, if_pos h]
  exact congrArg CodePoint.half (Fin.ext hmod)

theorem ofUnit_char (hh : isHighUnit u = false) (hl : isLowUnit u = false) :
    ofUnit u = .char (.ofNat u) := by
  simp [ofUnit, hh, hl]

theorem isHalf_ofUnit (u : Nat) :
    (ofUnit u).isHigh = isHighUnit u ∧ (ofUnit u).isLow = isLowUnit u := by
  by_cases h : isHighUnit u || isLowUnit u
  case pos =>
    obtain ⟨n, rfl⟩ := exists_half h
    rw [ofUnit_half, isHighUnit_half, isLowUnit_half]
    exact ⟨rfl, rfl⟩
  case neg =>
    obtain ⟨hh, hl⟩ := Bool.or_eq_false_iff.mp (eq_false_of_ne_true h)
    rw [ofUnit_char hh hl, hh, hl]
    exact ⟨rfl, rfl⟩

theorem escapedUnit?_hex4 (h : u < 0x10000) (hh : isHighUnit u = false) (hl : isLowUnit u = false)
    (s : List Char) : escapedUnit? ((hex4 u).drop 2 ++ s) = some (.char (.ofNat u), s) := by
  simp [escapedUnit?, unit?_hex4 h, hh, ofUnit_char hh hl]

-- A pair of code units, for a character that does not fit into one.
theorem escapedUnit?_pair {n : Nat} (h : n < 0x100000) (s : List Char) :
    escapedUnit? ((hex4 (0xD800 + n / 0x400)).drop 2 ++ (hex4 (0xDC00 + n % 0x400) ++ s)) =
      some (.char (.ofNat (0x10000 + n)), s) := by
  have hhigh : isHighUnit (0xD800 + n / 0x400) := by
    simp only [isHighUnit, Bool.and_eq_true, decide_eq_true_eq]
    omega
  have hlow : isLowUnit (0xDC00 + n % 0x400) := by
    simp only [isLowUnit, Bool.and_eq_true, decide_eq_true_eq]
    omega
  have hsum : 0x10000 + n / 0x400 * 0x400 + n % 0x400 = 0x10000 + n := by omega
  simp only [escapedUnit?, unit?_hex4 (by omega : 0xD800 + n / 0x400 < 0x10000), hhigh,
    Option.bind_eq_bind, Option.bind_some, if_true, hex4_append,
    unit?_hex4 (by omega : 0xDC00 + n % 0x400 < 0x10000), hlow, Nat.add_sub_cancel_left, hsum]
  rfl

end Units

section Bodies

variable {cs : Charset} {c : Char} {n : Nat} {s t r : List Char} {body : List CodePoint}

theorem toNat_lt (c : Char) : c.toNat < 0x110000 := by
  have hc := c.valid
  simp only [UInt32.isValidChar, Nat.isValidChar] at hc
  have : c.toNat = c.val.toNat := rfl
  omega

-- No character is half of a pair.
theorem not_isUnit (c : Char) : isHighUnit c.toNat = false ∧ isLowUnit c.toNat = false := by
  have hc := c.valid
  simp only [UInt32.isValidChar, Nat.isValidChar] at hc
  simp only [isHighUnit, isLowUnit, Bool.and_eq_false_iff, decide_eq_false_iff_not]
  have : c.toNat = c.val.toNat := rfl
  omega

theorem stringBody_unit {p : CodePoint} (hp : escapedUnit? t = some (p, s))
    (h : stringBody n s = some (body, r)) :
    stringBody (n + 1) ('\\' :: 'u' :: t) = some (p :: body, r) := by
  simp [stringBody, hp, h]

theorem stringBody_plain (hq : c ≠ '"') (hb : c ≠ '\\') (hc : 0x20 ≤ c.toNat)
    (h : stringBody n s = some (body, r)) :
    stringBody (n + 1) (c :: s) = some (.char c :: body, r) := by
  have hc : ¬ (c.toNat < 0x20 ∨ c = '\\') := by
    rw [not_or, Nat.not_lt]
    exact ⟨hc, hb⟩
  rw [stringBody.eq_def]
  dsimp only
  split <;> simp_all

theorem stringBody_hex4 (hc : c.toNat < 0x10000) (h : stringBody n s = some (body, r)) :
    stringBody (n + 1) (hex4 c.toNat ++ s) = some (.char c :: body, r) := by
  have ⟨hhigh, hlow⟩ := not_isUnit c
  have hunit := escapedUnit?_hex4 hc hhigh hlow s
  rw [Char.ofNat_toNat] at hunit
  rw [hex4_append]
  exact stringBody_unit hunit h

theorem stringBody_pair (hc : 0x10000 ≤ c.toNat) (h : stringBody n s = some (body, r)) :
    stringBody (n + 1) (hex4 (0xD800 + (c.toNat - 0x10000) / 0x400) ++
      (hex4 (0xDC00 + (c.toNat - 0x10000) % 0x400) ++ s)) = some (.char c :: body, r) := by
  have hlt : c.toNat - 0x10000 < 0x100000 := by
    have := toNat_lt c
    omega
  have hpair := escapedUnit?_pair hlt s
  rw [Nat.add_sub_cancel' hc, Char.ofNat_toNat] at hpair
  rw [hex4_append]
  exact stringBody_unit hpair h

-- A character that is escaped is read as the character.
theorem stringBody_escape (h : stringBody n s = some (body, r)) :
    stringBody (n + 1) (escape cs c ++ s) = some (.char c :: body, r) := by
  unfold escape
  split
  case h_8 hquote hslash _ _ _ _ _ =>
    dsimp only
    split
    case isTrue hc => exact stringBody_hex4 (by omega) h
    case isFalse hc =>
      split
      case isTrue => exact stringBody_plain hquote hslash (Nat.not_lt.mp hc) h
      case isFalse =>
        split
        case isTrue hc  => exact stringBody_hex4 hc h
        case isFalse hc =>
          rw [List.append_assoc]
          exact stringBody_pair (Nat.not_lt.mp hc) h
  all_goals simp [stringBody, shortEscape?, h]

theorem length_escape_pos (cs : Charset) (c : Char) : 0 < (escape cs c).length := by
  unfold escape
  split
  case h_8 =>
    dsimp only
    split
    case isTrue  => exact Nat.succ_pos _
    case isFalse =>
      split
      case isTrue  => exact Nat.succ_pos _
      case isFalse =>
        split
        case isTrue  => exact Nat.succ_pos _
        case isFalse => exact Nat.succ_pos _
  all_goals exact Nat.succ_pos _

end Bodies

end ShellArgs.Json
