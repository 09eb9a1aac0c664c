import Mathlib.Tactic.ByContra
import ShellArgs.Descriptor.Grammar

namespace ShellArgs.Descriptor

variable {c : Char}

theorem toNat_lt_of_isAlphanum (h : c.isAlphanum) : c.toNat < 0x80 := by
  delta Char.isAlphanum Char.isAlpha Char.isUpper Char.isLower Char.isDigit at h
  simp only [Bool.or_eq_true, Bool.and_eq_true, decide_eq_true_eq, ge_iff_le,
    UInt32.le_iff_toNat_le] at h
  have hc : c.val.toNat = c.toNat := rfl
  have hlast : 'Z'.val.toNat = 90 ∧ 'z'.val.toNat = 122 ∧ '9'.val.toNat = 57 := by decide
  omega

theorem toNat_lt_of_isNameChar (h : isNameChar c) : c.toNat < 0x80 := by
  simp only [isNameChar, Bool.or_eq_true, beq_iff_eq] at h
  obtain ((h | rfl) | rfl) | rfl := h
  · exact toNat_lt_of_isAlphanum h
  all_goals decide

theorem isNameChar_of_shell (h : Shell.isNameChar c) : isNameChar c := by
  simp only [isNameChar, Bool.or_eq_true]
  exact .inl (.inl (by simpa [Shell.isNameChar] using h))

theorem isNameChar_of_isLoneShortChar (h : isLoneShortChar c) : isNameChar c :=
  isNameChar_of_shell h

-- What is to be shown of the few characters that names consist of can be computed.
theorem forall_isNameChar {P : Char → Prop} (hp : ∀ n < 0x80, P (Char.ofNat n)) (h : isNameChar c) :
    P c := by
  simpa using hp c.toNat (toNat_lt_of_isNameChar h)

theorem isShortChar_of_isLoneShortChar (h : isLoneShortChar c) : isShortChar c :=
  forall_isNameChar (P := fun c => isLoneShortChar c → isShortChar c) (by decide +kernel)
    (isNameChar_of_isLoneShortChar h) h

theorem isNameChar_of_isBlank (h : Text.isBlank c) : isNameChar c = false := by
  by_contra hn
  have hb := forall_isNameChar (P := fun c => isNameChar c → Text.isBlank c = false)
    (by decide +kernel) (by simpa using hn) (by simpa using hn)
  simp [h] at hb

theorem isBlank_of_isSpace (h : isSpace c) : Text.isBlank c := by
  simp only [isSpace, Bool.or_eq_true, beq_iff_eq] at h
  obtain rfl | rfl := h
  all_goals decide

theorem ne_dash_of_isShortChar (h : isShortChar c) : c ≠ '-' := by
  rintro rfl
  revert h
  decide

-- A single character of a name can be a short form, if it is no dash.
theorem isShortChar_of_isNameChar (h : isNameChar c) (hc : c ≠ '-') : isShortChar c :=
  forall_isNameChar (P := fun c => isNameChar c → c ≠ '-' → isShortChar c) (by decide +kernel) h h hc

end ShellArgs.Descriptor
