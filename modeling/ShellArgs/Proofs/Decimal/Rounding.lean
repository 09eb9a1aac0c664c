import Mathlib.Algebra.Order.Field.Power
import Mathlib.Algebra.Order.Ring.Abs
import Mathlib.Data.Rat.Cast.Order
import Mathlib.Tactic.FieldSimp
import Mathlib.Tactic.Linarith
import Mathlib.Tactic.NormNum
import Mathlib.Tactic.Positivity
import Mathlib.Tactic.Ring
import ShellArgs.Decimal.Binary

-- Fractions are rounded to the nearest floating-point number, with ties to the even one. From the
-- middle between the greatest number and the next power of two on they are infinite.

namespace ShellArgs.Binary64

-- The value of a number without its sign.
def scaled (m : Nat) (e : Int) : ℚ :=
  m * 2 ^ e

-- The finite numbers: all mantissas of 53 bits, and shorter ones for the least exponent.
structure IsDouble (m : Nat) (e : Int) : Prop where
  short : m < 2 ^ 53
  least : -1074 ≤ e
  most  : e ≤ 971
  full  : 2 ^ 52 ≤ m ∨ e = -1074

-- Where the infinite numbers begin.
def bound : ℚ :=
  (2 ^ 54 - 1) * 2 ^ (970 : Int)

-- The number that a positive value is rounded to.
inductive Rounds (q : ℚ) (negative : Bool) : Binary64 → Prop
  | finite {m : Nat} {e : Int} (hd : IsDouble m e) (hq : q < bound)
      (near : ∀ n f, IsDouble n f → |q - scaled m e| ≤ |q - scaled n f|)
      (even : ∀ n f, IsDouble n f → |q - scaled m e| = |q - scaled n f| →
        scaled n f = scaled m e ∨ Even m) :
      Rounds q negative (.finite negative m e)
  | infinite (hq : bound ≤ q) : Rounds q negative (.infinite negative)

variable {q r : ℚ} {m n k : Nat} {e f : Int} {negative : Bool} {num den : Nat}

section Integers

-- The nearest integer to a fraction, with ties to the even one.
structure Nearest (r : ℚ) (m : Nat) : Prop where
  near : |r - m| ≤ 1 / 2
  even : |r - m| = 1 / 2 → Even m

theorem Nearest.of_lt (h : |r - m| < 1 / 2) : Nearest r m :=
  ⟨h.le, fun he => absurd he h.ne⟩

-- A fraction is its quotient and what the remainder adds to it.
theorem exists_quotient_add (num : Nat) (h : 0 < den) : ∃ x : ℚ,
    (num : ℚ) / den = (num / den : Nat) + x ∧ x * den = (num % den : Nat) ∧ 0 ≤ x ∧ x < 1 := by
  have hden : (0 : ℚ) < den := by exact_mod_cast h
  refine ⟨(num % den : Nat) / den, ?_, div_mul_cancel₀ _ hden.ne', by positivity, ?_⟩
  case refine_1 =>
    have hsum : (num : ℚ) = den * (num / den : Nat) + (num % den : Nat) := by
      exact_mod_cast (Nat.div_add_mod num den).symm
    rw [hsum]
    field_simp
  case refine_2 =>
    rw [div_lt_one hden]
    exact_mod_cast Nat.mod_lt num h

theorem nearest_roundDiv (num : Nat) (h : 0 < den) : Nearest ((num : ℚ) / den) (roundDiv num den) := by
  have hden : (0 : ℚ) < den := by exact_mod_cast h
  have ⟨x, hdiv, hmul, hlow, hhigh⟩ := exists_quotient_add num h
  unfold roundDiv
  simp only
  rw [hdiv]
  split
  case isTrue hr =>
    have hr : (2 : ℚ) * (num % den : Nat) < den := by exact_mod_cast hr
    have hhalf : x < 1 / 2 := by nlinarith
    refine .of_lt ?_
    rw [add_sub_cancel_left, abs_of_nonneg hlow]
    exact hhalf
  case isFalse hr =>
    split
    case isTrue hr =>
      have hr : (den : ℚ) < 2 * (num % den : Nat) := by exact_mod_cast hr
      have hhalf : 1 / 2 < x := by nlinarith
      refine .of_lt (abs_lt.mpr ?_)
      push_cast
      constructor <;> linarith
    case isFalse hr' =>
      have hr : (2 : ℚ) * (num % den : Nat) = den := by
        exact_mod_cast Nat.le_antisymm (not_lt.mp hr') (not_lt.mp hr)
      have hhalf : x = 1 / 2 := by
        rw [← hmul] at hr
        have : 2 * x = 1 := mul_right_cancel₀ hden.ne' (by linarith)
        linarith
      have heven : Even (num / den + num / den % 2) := by
        rw [Nat.even_iff]
        omega
      refine ⟨?_, fun _ => heven⟩
      rcases Nat.mod_two_eq_zero_or_one (num / den) with hq | hq
      case inl => norm_num [hq, hhalf, abs_of_pos]
      case inr => norm_num [hq, hhalf]

-- An integer that is not the nearest one is farther away, or a neighbour of an even one.
theorem Nearest.farther (h : Nearest r m) (hne : k ≠ m) :
    |r - m| < |r - k| ∨ |r - m| = |r - k| ∧ Even m ∧ ¬ Even k := by
  have hapart : (1 : ℚ) ≤ |(k : ℚ) - m| := by
    exact_mod_cast Int.one_le_abs (sub_ne_zero.mpr (Int.natCast_inj.not.mpr hne))
  have htriangle : |(k : ℚ) - m| ≤ |r - k| + |r - m| := by
    rw [abs_sub_comm r k]
    exact abs_sub_le (k : ℚ) r m
  have hnear := h.near
  rcases lt_or_ge |r - m| |r - k| with hlt | hge
  case inl => exact .inl hlt
  case inr =>
    have hhalf : |r - m| = 1 / 2 := by linarith
    have hneighbour : |(k : ℤ) - m| = 1 := by
      have : |(k : ℚ) - m| = 1 := by linarith
      exact_mod_cast this
    have heven := h.even hhalf
    refine .inr ⟨by linarith, heven, ?_⟩
    rw [Nat.even_iff] at heven ⊢
    rcases (abs_eq zero_le_one).mp hneighbour with hk | hk <;> omega

theorem Nearest.le (h : Nearest r m) (k : Nat) : |r - m| ≤ |r - k| := by
  by_cases hk : k = m
  case pos => rw [hk]
  case neg => exact (h.farther hk).elim (·.le) (·.1.le)

theorem Nearest.le_of_lt (h : Nearest r m) (hr : r < k) : m ≤ k := by
  by_contra hkm
  have hkm : (k : ℚ) + 1 ≤ m := by exact_mod_cast not_le.mp hkm
  have := (abs_le.mp h.near).1
  linarith

theorem Nearest.ge_of_le (h : Nearest r m) (hr : k ≤ r) : k ≤ m := by
  by_contra hmk
  have hmk : (m : ℚ) + 1 ≤ k := by exact_mod_cast not_le.mp hmk
  have := (abs_le.mp h.near).2
  linarith

end Integers

section Grid

theorem two_zpow_pos (e : Int) : (0 : ℚ) < 2 ^ e :=
  zpow_pos (by norm_num) e

theorem scale_fst_div_snd (num : Nat) (e : Int) (h : 0 < den) : 0 < (scale num den e).2 ∧
    ((scale num den e).1 : ℚ) / (scale num den e).2 = num / den / 2 ^ e := by
  have hpow (n : Nat) : ((twoTo n : Nat) : ℚ) = 2 ^ n := by simp [twoTo]
  have hpos (n : Nat) : 0 < twoTo n := Nat.pow_pos (by decide)
  unfold scale
  split
  case isTrue he =>
    refine ⟨Nat.mul_pos h (hpos _), ?_⟩
    obtain ⟨n, rfl⟩ := Int.eq_ofNat_of_zero_le he
    simp [hpow, div_div]
  case isFalse he =>
    refine ⟨h, ?_⟩
    obtain ⟨n, hn⟩ := Int.eq_ofNat_of_zero_le (a := -e) (by omega)
    obtain rfl : e = -n := by omega
    simp [hpow, zpow_neg, div_mul_eq_mul_div]

-- Numbers with a greater exponent are multiples of a power of two.
theorem scaled_eq_mul (h : e ≤ f) : scaled n f = (n * 2 ^ (f - e).toNat : Nat) * 2 ^ e := by
  have hsplit : (2 : ℚ) ^ f = 2 ^ (f - e).toNat * 2 ^ e := by
    rw [← zpow_natCast, ← zpow_add₀ (by norm_num : (2 : ℚ) ≠ 0)]
    congr 1
    omega
  rw [scaled, hsplit]
  push_cast
  ring

-- Numbers with a smaller exponent lie below all those of 53 bits.
theorem scaled_lt_of_lt (hn : n < 2 ^ 53) (h : f < e) : scaled n f < 2 ^ 52 * 2 ^ e := by
  have hn : (n : ℚ) < 2 ^ 53 := by exact_mod_cast hn
  have hpow : (2 : ℚ) ^ (f + 1) ≤ 2 ^ e := zpow_le_zpow_right₀ (by norm_num) (by omega)
  have hstep : (2 : ℚ) ^ (f + 1) = 2 ^ f * 2 := zpow_add_one₀ (by norm_num) f
  have hpos := two_zpow_pos f
  calc scaled n f < 2 ^ 53 * 2 ^ f := by rw [scaled]; gcongr
    _ = 2 ^ 52 * 2 ^ (f + 1) := by rw [hstep]; ring
    _ ≤ 2 ^ 52 * 2 ^ e := by gcongr

theorem abs_sub_mul_zpow (q r : ℚ) (e : Int) : |q - r * 2 ^ e| = |q / 2 ^ e - r| * 2 ^ e := by
  have hpos := two_zpow_pos e
  rw [← abs_of_pos hpos, ← abs_mul, abs_of_pos hpos, sub_mul, div_mul_cancel₀ _ hpos.ne']

-- The value is in the range of numbers with 53 bits and this exponent, or it is smaller than all of
-- these and the exponent is the least one.
structure Fits (q : ℚ) (e : Int) : Prop where
  least : -1074 ≤ e
  low   : e = -1074 ∨ 2 ^ 52 * 2 ^ e ≤ q
  high  : q < 2 ^ 53 * 2 ^ e

-- The nearest multiple of the power of two is the nearest one of all numbers.
theorem Nearest.farther_double (h : Nearest (q / 2 ^ e) m) (hq : Fits q e) (hd : IsDouble n f)
    (hne : scaled n f ≠ scaled m e) : |q - scaled m e| < |q - scaled n f| ∨
      |q - scaled m e| = |q - scaled n f| ∧ Even m ∧ ¬ Even n := by
  have hpos := two_zpow_pos e
  rcases le_or_gt e f with hef | hfe
  case inl =>
    have hscaled : scaled n f = (n * 2 ^ (f - e).toNat : Nat) * 2 ^ e := scaled_eq_mul hef
    generalize hk : n * 2 ^ (f - e).toNat = k at hscaled
    have hkm : k ≠ m := by
      rintro rfl
      exact hne hscaled
    rw [hscaled, scaled, abs_sub_mul_zpow, abs_sub_mul_zpow]
    rcases h.farther hkm with hlt | ⟨heq, hm, hodd⟩
    case inl => exact .inl (by gcongr)
    case inr => exact .inr ⟨by rw [heq], hm, fun hn => hodd (hk ▸ hn.mul_right _)⟩
  case inr =>
    have hlow : 2 ^ 52 * 2 ^ e ≤ q := hq.low.resolve_left (by have := hd.least; omega)
    have hbelow := scaled_lt_of_lt hd.short hfe
    have hgrid : |q - scaled m e| ≤ |q - 2 ^ 52 * 2 ^ e| := by
      have hcast : ((2 ^ 52 : Nat) : ℚ) = 2 ^ 52 := by norm_num
      have hk : |q / 2 ^ e - m| ≤ |q / 2 ^ e - 2 ^ 52| := hcast ▸ h.le (2 ^ 52)
      rw [scaled, abs_sub_mul_zpow, abs_sub_mul_zpow]
      exact mul_le_mul_of_nonneg_right hk hpos.le
    rw [abs_of_nonneg (sub_nonneg.mpr hlow)] at hgrid
    refine .inl (hgrid.trans_lt ?_)
    rw [abs_of_pos (by linarith)]
    linarith

end Grid

section Results

theorem isDouble_unique (hm : IsDouble m e) (hn : IsDouble n f) (h : scaled m e = scaled n f) :
    m = n ∧ e = f := by
  have hlt {m n : Nat} {e f : Int} (hm : IsDouble m e) (hn : IsDouble n f) (hef : e < f) :
      scaled m e < scaled n f := by
    have hfull : 2 ^ 52 ≤ n := hn.full.resolve_right (by have := hm.least; omega)
    have hfull : (2 : ℚ) ^ 52 ≤ n := by exact_mod_cast hfull
    have hpos := two_zpow_pos f
    calc scaled m e < 2 ^ 52 * 2 ^ f := scaled_lt_of_lt hm.short hef
      _ ≤ scaled n f := by rw [scaled]; gcongr
  obtain rfl : e = f := by
    rcases lt_trichotomy e f with hef | hef | hef
    case inl     => exact absurd h (hlt hm hn hef).ne
    case inr.inl => exact hef
    case inr.inr => exact absurd h (hlt hn hm hef).ne'
  have hpos := two_zpow_pos e
  exact ⟨by exact_mod_cast mul_right_cancel₀ hpos.ne' h, rfl⟩

-- The next power of two has one bit less.
def carried (m : Nat) (e : Int) : Nat × Int :=
  if m = 2 ^ 53 then (2 ^ 52, e + 1) else (m, e)

theorem scaled_carried : scaled (carried m e).1 (carried m e).2 = scaled m e := by
  unfold carried
  split
  case isFalse => rfl
  case isTrue h =>
    have hstep : (2 : ℚ) ^ (e + 1) = 2 ^ e * 2 := zpow_add_one₀ (by norm_num) e
    rw [h, scaled, scaled, hstep]
    push_cast
    ring

theorem Fits.mantissa (hq : Fits q e) (h : Nearest (q / 2 ^ e) m) :
    m ≤ 2 ^ 53 ∧ (2 ^ 52 ≤ m ∨ e = -1074) := by
  have hpos := two_zpow_pos e
  refine ⟨h.le_of_lt ?_, ?_⟩
  case refine_1 =>
    rw [div_lt_iff₀ hpos]
    exact_mod_cast hq.high
  case refine_2 =>
    refine hq.low.symm.imp_left fun hlow => h.ge_of_le ?_
    rw [le_div_iff₀ hpos]
    exact_mod_cast hlow

theorem isDouble_carried (h : Nearest (q / 2 ^ e) m) (hq : Fits q e) (he : (carried m e).2 ≤ 971) :
    IsDouble (carried m e).1 (carried m e).2 := by
  have ⟨hm, hfull⟩ := hq.mantissa h
  have hleast := hq.least
  revert he
  unfold carried
  split
  case isTrue  => exact fun he => ⟨by norm_num, by simp only; omega, he, .inl le_rfl⟩
  case isFalse => exact fun he => ⟨by simp only; omega, hleast, he, hfull⟩

-- The greatest numbers have an odd mantissa, so that the bound itself is rounded up.
theorem lt_bound_iff (h : Nearest (q / 2 ^ (971 : Int)) m) (hm : m ≤ 2 ^ 53) :
    q < bound ↔ m ≠ 2 ^ 53 := by
  have hpos := two_zpow_pos 971
  have hbound : bound = (2 ^ 53 - 1 / 2) * 2 ^ (971 : Int) := by
    have hstep : (2 : ℚ) ^ (971 : Int) = 2 ^ (970 : Int) * 2 := zpow_add_one₀ (by norm_num) 970
    rw [bound, hstep]
    ring
  rw [hbound, ← div_lt_iff₀ hpos]
  generalize q / 2 ^ (971 : Int) = r at h
  have ⟨hlow, hhigh⟩ := abs_le.mp h.near
  constructor
  case mp =>
    rintro hr rfl
    push_cast at hlow
    linarith
  case mpr =>
    intro hne
    have hlt : m + 1 ≤ 2 ^ 53 := by omega
    have hlt : (m : ℚ) + 1 ≤ 2 ^ 53 := by exact_mod_cast hlt
    refine lt_of_le_of_ne (by linarith) fun hr => ?_
    have heq : (m : ℚ) + 1 = 2 ^ 53 := by linarith
    have hodd : m + 1 = 2 ^ 53 := by exact_mod_cast heq
    have heven := h.even (by rw [abs_of_nonneg (by linarith)]; linarith)
    rw [Nat.even_iff] at heven
    omega

theorem carried_le_iff (h : Nearest (q / 2 ^ e) m) (hq : Fits q e) :
    (carried m e).2 ≤ 971 ↔ q < bound := by
  have hmono {a b : Int} (hab : a ≤ b) : (2 : ℚ) ^ a ≤ 2 ^ b := zpow_le_zpow_right₀ (by norm_num) hab
  have hpos := two_zpow_pos 970
  have hle : e ≤ (carried m e).2 ∧ (carried m e).2 ≤ e + 1 := by
    unfold carried
    split <;> constructor <;> simp only <;> omega
  rcases lt_trichotomy e 971 with he | rfl | he
  case inl =>
    have hpow := hmono (show e ≤ 970 by omega)
    have hhigh := hq.high
    refine iff_of_true (by omega) ?_
    rw [bound]
    generalize (2 : ℚ) ^ e = a, (2 : ℚ) ^ (970 : Int) = c at *
    linarith
  case inr.inl =>
    have hm := (hq.mantissa h).1
    rw [lt_bound_iff h hm]
    unfold carried
    split
    case isTrue hm  => simp [hm]
    case isFalse hm => exact iff_of_true le_rfl hm
  case inr.inr =>
    have hlow := hq.low.resolve_left (by omega)
    have hpow := hmono (show 970 + 2 ≤ e by omega)
    rw [zpow_add₀ (by norm_num) 970 2] at hpow
    refine iff_of_false (by omega) (not_lt.mpr ?_)
    rw [bound]
    generalize (2 : ℚ) ^ e = a, (2 : ℚ) ^ (970 : Int) = c at *
    norm_num at hpow
    linarith

theorem rounds_carried (h : Nearest (q / 2 ^ e) m) (hq : Fits q e) : Rounds q negative
    (if 971 < (carried m e).2 then .infinite negative
      else .finite negative (carried m e).1 (carried m e).2) := by
  have hiff := carried_le_iff h hq
  split
  case isTrue he  => exact .infinite (not_lt.mp (hiff.not.mp (not_le.mpr he)))
  case isFalse he =>
    have he := not_lt.mp he
    have heven : Even m → Even (carried m e).1 := by
      unfold carried
      split
      case isTrue  => exact fun _ => (even_two.pow_of_ne_zero (by norm_num) : Even (2 ^ 52))
      case isFalse => exact id
    refine .finite (isDouble_carried h hq he) (hiff.mp he) ?near ?even
    case near =>
      intro n f hd
      rw [scaled_carried]
      by_cases hne : scaled n f = scaled m e
      case pos => rw [hne]
      case neg => exact (h.farther_double hq hd hne).elim (·.le) (·.1.le)
    case even =>
      intro n f hd
      rw [scaled_carried]
      intro htie
      by_cases hne : scaled n f = scaled m e
      case pos => exact .inl hne
      case neg =>
        rcases h.farther_double hq hd hne with hlt | ⟨_, hm, _⟩
        case inl => exact absurd htie hlt.ne
        case inr => exact .inr (heven hm)

theorem Rounds.eq_carried (h : Nearest (q / 2 ^ e) m) (hq : Fits q e) {x : Binary64}
    (hx : Rounds q negative x) : x = if 971 < (carried m e).2 then .infinite negative
      else .finite negative (carried m e).1 (carried m e).2 := by
  have hiff := carried_le_iff h hq
  cases hx with
  | infinite hb => rw [if_pos (not_le.mp (hiff.not.mpr (not_lt.mpr hb)))]
  | @finite n f hd hb near even =>
    have he := hiff.mpr hb
    have hc := isDouble_carried h hq he
    rw [if_neg (not_lt.mpr he)]
    have hsame : scaled n f = scaled m e := by
      by_contra hne
      have hnear := near _ _ hc
      rw [scaled_carried] at hnear
      rcases h.farther_double hq hd hne with hlt | ⟨htie, _, hodd⟩
      case inl => exact absurd hnear (not_le.mpr hlt)
      case inr =>
        have heven := even _ _ hc (by rw [scaled_carried, htie])
        rw [scaled_carried] at heven
        exact heven.elim (fun hs => hne hs.symm) hodd
    obtain ⟨rfl, rfl⟩ := isDouble_unique hd hc (hsame.trans scaled_carried.symm)
    rfl

end Results

section Fractions

-- The exponent that a fraction is tried with first, and the one that it gets.
def firstExponent (num den : Nat) : Int :=
  max ((num.log2 : Int) - den.log2 - 53) (-1074)

def exponentOf (num den : Nat) : Int :=
  let e := firstExponent num den
  if (scale num den e).1 / (scale num den e).2 < 2 ^ 53 then e else e + 1

theorem fraction_between (hn : num ≠ 0) (hd : 0 < den) :
    (2 : ℚ) ^ ((num.log2 : Int) - den.log2 - 1) < num / den ∧
      (num : ℚ) / den < 2 ^ ((num.log2 : Int) - den.log2 + 1) := by
  have hden : (0 : ℚ) < den := by exact_mod_cast hd
  have hpow (a b : Nat) : (2 : ℚ) ^ ((a : Int) - b) = 2 ^ a / 2 ^ b := by
    rw [zpow_sub₀ (by norm_num), zpow_natCast, zpow_natCast]
  have hnlow : (2 : ℚ) ^ num.log2 ≤ num := by exact_mod_cast Nat.log2_self_le hn
  have hnhigh : (num : ℚ) < 2 ^ (num.log2 + 1) := by exact_mod_cast Nat.lt_log2_self
  have hdlow : (2 : ℚ) ^ den.log2 ≤ den := by exact_mod_cast Nat.log2_self_le hd.ne'
  have hdhigh : (den : ℚ) < 2 ^ (den.log2 + 1) := by exact_mod_cast Nat.lt_log2_self
  constructor
  case left =>
    have hsplit : (num.log2 : Int) - den.log2 - 1 = num.log2 - (den.log2 + 1 : Nat) := by omega
    rw [hsplit, hpow, div_lt_div_iff₀ (by positivity) hden]
    calc 2 ^ num.log2 * (den : ℚ) < 2 ^ num.log2 * 2 ^ (den.log2 + 1) := by gcongr
      _ ≤ num * 2 ^ (den.log2 + 1) := by gcongr
  case right =>
    have hsplit : (num.log2 : Int) - den.log2 + 1 = (num.log2 + 1 : Nat) - den.log2 := by omega
    rw [hsplit, hpow, div_lt_div_iff₀ hden (by positivity)]
    calc (num : ℚ) * 2 ^ den.log2 < 2 ^ (num.log2 + 1) * 2 ^ den.log2 := by gcongr
      _ ≤ 2 ^ (num.log2 + 1) * den := by gcongr

theorem div_lt_iff_scale (hd : 0 < den) : (scale num den e).1 / (scale num den e).2 < k ↔
    (num : ℚ) / den < k * 2 ^ e := by
  have ⟨hpos, hscale⟩ := scale_fst_div_snd num e hd
  have hposq : (0 : ℚ) < (scale num den e).2 := by exact_mod_cast hpos
  rw [Nat.div_lt_iff_lt_mul hpos, ← div_lt_iff₀ (two_zpow_pos e), ← hscale, div_lt_iff₀ hposq]
  exact_mod_cast Iff.rfl

theorem fits_exponentOf (hn : num ≠ 0) (hd : 0 < den) :
    Fits ((num : ℚ) / den) (exponentOf num den) := by
  have ⟨hlow, hhigh⟩ := fraction_between hn hd
  have hmul (k : Nat) (a : Int) : (2 : ℚ) ^ k * 2 ^ a = 2 ^ ((k : Int) + a) := by
    rw [zpow_add₀ (by norm_num), zpow_natCast]
  have hleast : -1074 ≤ firstExponent num den := le_max_right _ _
  have hfirst : firstExponent num den = -1074 ∨
      2 ^ 52 * 2 ^ firstExponent num den ≤ (num : ℚ) / den := by
    rcases max_choice ((num.log2 : Int) - den.log2 - 53) (-1074) with h | h
    case inr => exact .inl h
    case inl =>
      refine .inr (le_of_eq_of_le ?_ hlow.le)
      rw [firstExponent, h, hmul]
      congr 1
      omega
  have hmost : (num : ℚ) / den < 2 ^ 54 * 2 ^ firstExponent num den := by
    refine hhigh.trans_le ?_
    rw [hmul]
    refine zpow_le_zpow_right₀ (by norm_num) ?_
    have : (num.log2 : Int) - den.log2 - 53 ≤ firstExponent num den := le_max_left _ _
    omega
  have hcast : ((2 ^ 53 : Nat) : ℚ) = 2 ^ 53 := by norm_num
  unfold exponentOf
  simp only [div_lt_iff_scale hd, hcast]
  split
  case isTrue h => exact ⟨hleast, hfirst, h⟩
  case isFalse h =>
    have hstep : (2 : ℚ) ^ (firstExponent num den + 1) = 2 ^ firstExponent num den * 2 :=
      zpow_add_one₀ (by norm_num) _
    generalize (2 : ℚ) ^ firstExponent num den = a at *
    refine ⟨by omega, .inr ?_, ?_⟩
    all_goals
      rw [hstep]
      linarith

theorem ofFraction_eq (hn : num ≠ 0) : ofFraction negative num den =
    let e := exponentOf num den
    let m := roundDiv (scale num den e).1 (scale num den e).2
    if 971 < (carried m e).2 then .infinite negative
      else .finite negative (carried m e).1 (carried m e).2 := by
  unfold ofFraction
  rw [if_neg hn]
  rfl

theorem bound_pos : 0 < bound :=
  mul_pos (by norm_num) (two_zpow_pos 970)

-- What is less than half of the least number is rounded to zero.
theorem rounds_tiny (h : 0 ≤ q) (hq : q < 2 ^ (-1075 : Int)) :
    Rounds q negative (.finite negative 0 leastExponent) := by
  have hsmall : (2 : ℚ) ^ (-1075 : Int) < bound := by
    have : (2 : ℚ) ^ (-1075 : Int) ≤ 2 ^ (970 : Int) := zpow_le_zpow_right₀ (by norm_num) (by norm_num)
    have hpos := two_zpow_pos 970
    rw [bound]
    generalize (2 : ℚ) ^ (970 : Int) = c at *
    linarith
  refine .finite ⟨by norm_num, le_rfl, by decide, .inr rfl⟩ (hq.trans hsmall) ?_ fun _ _ _ _ =>
    .inr ⟨0, rfl⟩
  intro n f hd
  have hzero : scaled 0 leastExponent = 0 := by simp [scaled]
  rw [hzero, sub_zero, abs_of_nonneg h]
  by_cases hn : n = 0
  case pos => simp [scaled, hn, le_abs_self]
  case neg =>
    have hone : (1 : ℚ) ≤ n := by exact_mod_cast Nat.one_le_iff_ne_zero.mpr hn
    have hpow : (2 : ℚ) ^ (-1075 + 1 : Int) ≤ 2 ^ f := zpow_le_zpow_right₀ (by norm_num) hd.least
    rw [zpow_add_one₀ (by norm_num)] at hpow
    have hpos := two_zpow_pos f
    have hleast : (2 : ℚ) ^ f ≤ scaled n f := by
      rw [scaled]
      exact le_mul_of_one_le_left hpos.le hone
    rw [abs_sub_comm, abs_of_nonneg (by linarith)]
    linarith

theorem ofFraction_rounds (negative : Bool) (num : Nat) (hd : 0 < den) :
    Rounds ((num : ℚ) / den) negative (ofFraction negative num den) := by
  by_cases hn : num = 0
  case pos => simpa [ofFraction, hn] using rounds_tiny le_rfl (two_zpow_pos (-1075))
  case neg =>
    have ⟨hpos, hscale⟩ := scale_fst_div_snd num (exponentOf num den) hd
    have hnearest := nearest_roundDiv (scale num den (exponentOf num den)).1 hpos
    rw [hscale] at hnearest
    rw [ofFraction_eq hn]
    exact rounds_carried hnearest (fits_exponentOf hn hd)

theorem Rounds.eq_ofFraction (hd : 0 < den) (h : Rounds ((num : ℚ) / den) negative x) :
    x = ofFraction negative num den := by
  by_cases hn : num = 0
  case pos =>
    have hzero : Rounds 0 negative x := by simpa [hn] using h
    rw [ofFraction, if_pos hn]
    cases hzero with
    | infinite hq => exact absurd hq (not_le.mpr bound_pos)
    | @finite m e hm _ near _ =>
      have hle := near 0 (-1074) ⟨by norm_num, le_rfl, by decide, .inr rfl⟩
      have hpos := two_zpow_pos e
      have hle : (m : ℚ) * 2 ^ e ≤ 0 := by simpa [scaled] using hle
      have hm0 : (m : ℚ) ≤ 0 := nonpos_of_mul_nonpos_left hle hpos
      obtain rfl : m = 0 := by exact_mod_cast hm0.antisymm m.cast_nonneg
      rw [hm.full.resolve_left (by norm_num)]
      rfl
  case neg =>
    have ⟨hpos, hscale⟩ := scale_fst_div_snd num (exponentOf num den) hd
    have hnearest := nearest_roundDiv (scale num den (exponentOf num den)).1 hpos
    rw [hscale] at hnearest
    rw [ofFraction_eq hn]
    exact h.eq_carried hnearest (fits_exponentOf hn hd)

-- A value is rounded to one number only.
theorem Rounds.eq {x y : Binary64} (hq : 0 ≤ q) (hx : Rounds q negative x)
    (hy : Rounds q negative y) : x = y := by
  have hnum : (q.num.toNat : ℚ) = q.num := by
    exact_mod_cast congrArg (Int.cast : Int → ℚ) (Int.toNat_of_nonneg (Rat.num_nonneg.mpr hq))
  have hfraction : q = (q.num.toNat : ℚ) / q.den := by rw [hnum, Rat.num_div_den]
  rw [hfraction] at hx hy
  rw [hx.eq_ofFraction q.den_pos, hy.eq_ofFraction q.den_pos]

end Fractions

section Decimals

variable {x : Int}

theorem two_zpow_le_ten_zpow : (2 : ℚ) ^ (1200 : Int) ≤ 10 ^ (400 : Int) := by
  have htwo : (2 : ℚ) ^ (1200 : Int) = (2 ^ 3) ^ 400 := by rw [← pow_mul, ← zpow_natCast]; rfl
  have hten : (10 : ℚ) ^ (400 : Int) = 10 ^ 400 := zpow_natCast 10 400
  rw [htwo, hten]
  exact pow_le_pow_left₀ (by norm_num) (by norm_num) 400

theorem bound_le_ten_zpow (hx : 400 < x) : bound ≤ 10 ^ x := by
  have hpos := two_zpow_pos 970
  calc bound ≤ 2 ^ (54 : Int) * 2 ^ (970 : Int) := by rw [bound]; gcongr; norm_num
    _ = 2 ^ (1024 : Int) := by rw [← zpow_add₀ (by norm_num)]; rfl
    _ ≤ 2 ^ (1200 : Int) := zpow_le_zpow_right₀ (by norm_num) (by norm_num)
    _ ≤ 10 ^ (400 : Int) := two_zpow_le_ten_zpow
    _ ≤ 10 ^ x := zpow_le_zpow_right₀ (by norm_num) hx.le

theorem decimal_lt (h : x + n.log2 < -400) : (n : ℚ) * 10 ^ x < 2 ^ (-1075 : Int) := by
  have hn : (n : ℚ) < 10 ^ (n.log2 + 1) := by
    have hlog : (n : ℚ) < 2 ^ (n.log2 + 1) := by exact_mod_cast Nat.lt_log2_self
    refine hlog.trans_le ?_
    gcongr
    norm_num
  have hpos : (0 : ℚ) < 10 ^ x := zpow_pos (by norm_num) x
  calc (n : ℚ) * 10 ^ x < 10 ^ (n.log2 + 1) * 10 ^ x := by gcongr
    _ = 10 ^ ((n.log2 + 1 : Nat) + x) := by rw [zpow_add₀ (by norm_num), zpow_natCast]
    _ ≤ 10 ^ (-400 : Int) := zpow_le_zpow_right₀ (by norm_num) (by omega)
    _ = (10 ^ (400 : Int))⁻¹ := zpow_neg 10 400
    _ ≤ (2 ^ (1200 : Int))⁻¹ := inv_anti₀ (two_zpow_pos 1200) two_zpow_le_ten_zpow
    _ = 2 ^ (-1200 : Int) := (zpow_neg 2 1200).symm
    _ < 2 ^ (-1075 : Int) := zpow_lt_zpow_right₀ (by norm_num) (by norm_num)

-- Digits before a power of ten are rounded as they should be, also where the fraction is not written
-- out because of its size.
theorem ofDecimal_rounds (negative : Bool) (n : Nat) (x : Int) :
    Rounds ((n : ℚ) * 10 ^ x) negative (ofDecimal negative n x) := by
  have hten (k : Nat) : ((tenTo k : Nat) : ℚ) = 10 ^ k := by simp [tenTo]
  unfold ofDecimal
  split
  case isTrue hn => simpa [hn] using rounds_tiny le_rfl (two_zpow_pos (-1075))
  case isFalse hn =>
    split
    case isTrue hx =>
      have hone : (1 : ℚ) ≤ n := by exact_mod_cast Nat.one_le_iff_ne_zero.mpr hn
      have hpos : (0 : ℚ) < 10 ^ x := zpow_pos (by norm_num) x
      exact .infinite ((bound_le_ten_zpow hx).trans (le_mul_of_one_le_left hpos.le hone))
    case isFalse =>
      split
      case isTrue hx => exact rounds_tiny (by positivity) (decimal_lt hx)
      case isFalse =>
        split
        case isTrue hx =>
          obtain ⟨k, rfl⟩ := Int.eq_ofNat_of_zero_le hx
          simpa [hten] using ofFraction_rounds negative (n * tenTo k) Nat.one_pos
        case isFalse hx =>
          obtain ⟨k, hk⟩ := Int.eq_ofNat_of_zero_le (a := -x) (by omega)
          obtain rfl : x = -k := by omega
          have hpos : 0 < tenTo k := Nat.pow_pos (by decide)
          simpa [hten, div_eq_mul_inv] using ofFraction_rounds negative n hpos

end Decimals

end ShellArgs.Binary64
