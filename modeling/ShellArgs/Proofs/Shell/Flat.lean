import ShellArgs.Param.Label
import ShellArgs.Proofs.Descriptor.Flat
import ShellArgs.Proofs.Descriptor.Written
import ShellArgs.Proofs.Forms
import ShellArgs.Shell.Code

-- Texts that stand on one line stay on one line when they are quoted, expanded, put together or
-- put in upper case. So do names and numbers.

namespace ShellArgs

open Text Shell

namespace Text

variable {s : List Char} {sep : String} {ss : List String}

theorem oneLine_intercalate (hs : OneLine sep) (h : ∀ s ∈ ss, OneLine s) :
    OneLine (sep.intercalate ss) := by
  rw [OneLine, String.toList_intercalate, flat_intercalate hs]
  exact List.forall_mem_map.mpr h

theorem oneLine_headD {s : String} (hss : ∀ t ∈ ss, OneLine t) (hs : OneLine s) :
    OneLine (ss.headD s) := by
  cases ss
  case nil       => exact hs
  case cons t ss => exact hss t List.mem_cons_self

theorem oneLine_getLastD {s : String} (hss : ∀ t ∈ ss, OneLine t) (hs : OneLine s) :
    OneLine (ss.getLastD s) := by
  rw [List.getLastD_eq_getLast?]
  cases h : ss.getLast?
  case none   => exact hs
  case some t => exact hss t (List.mem_of_getLast? h)

-- The characters between `low` and `high` are no line breaks.
def Unbroken (low high : Nat) : Prop :=
  0x1F ≤ low ∧ high ≤ 0x84 ∨ 0x86 ≤ low ∧ high ≤ 0x2027 ∨ 0x202A ≤ low

instance {low high : Nat} : Decidable (Unbroken low high) :=
  inferInstanceAs (Decidable (_ ∨ _ ∨ _))

theorem not_isLineBreak_ofNat {low high n : Nat} (h : Unbroken low high) (hl : low ≤ n)
    (hh : n ≤ high) : isLineBreak (Char.ofNat n) = false := by
  have hn : (Char.ofNat n).toNat = n ∨ (Char.ofNat n).toNat = 0 := by
    by_cases hv : n.isValidChar
    case pos => exact .inl (by rw [Char.ofNat, dif_pos hv]; rfl)
    case neg => exact .inr (by rw [Char.ofNat, dif_neg hv]; rfl)
  simp only [isLineBreak, Bool.or_eq_false_iff, Bool.and_eq_false_iff, decide_eq_false_iff_not,
    beq_eq_false_iff_ne, ne_eq]
  unfold Unbroken at h
  omega

theorem flat_upper (h : Flat s) : Flat (upper s) := by
  have hexpansions : ∀ e ∈ upperExpansions, ∀ u ∈ e.2, Unbroken u u := by decide +kernel
  have hruns : ∀ r ∈ upperRuns, Unbroken (r.1 + r.2.2.2.1 - r.2.2.2.2)
      (r.2.1 + r.2.2.2.1 - r.2.2.2.2) := by decide +kernel
  intro d hd
  obtain ⟨c, hc, hd⟩ := List.mem_flatMap.mp hd
  unfold upperChar at hd
  split at hd
  case h_1 us hus =>
    obtain ⟨u, hu, rfl⟩ := List.mem_map.mp hd
    have hmem : (c.toNat, us) ∈ upperExpansions := by
      obtain ⟨l, r, hl, _⟩ := List.lookup_eq_some_iff.mp hus
      simp [hl]
    exact not_isLineBreak_ofNat (hexpansions _ hmem u hu) (Nat.le_refl u) (Nat.le_refl u)
  case h_2 =>
    split at hd
    case h_1 first last step up down hr =>
      obtain rfl := List.mem_singleton.mp hd
      have hholds := List.find?_some hr
      simp only [upperChar.holds, Bool.and_eq_true, decide_eq_true_eq] at hholds
      refine not_isLineBreak_ofNat (hruns _ (List.mem_of_find?_eq_some hr)) ?_ ?_
      case refine_1 => show first + up - down ≤ _; omega
      case refine_2 => show _ ≤ last + up - down; omega
    case h_2 =>
      obtain rfl := List.mem_singleton.mp hd
      exact h d hc

end Text

namespace Shell

variable {c : Char} {s : String} {n : Nat}

theorem isPlainChar_of_isNameChar (h : isNameChar c) : isPlainChar c := by
  simp [isPlainChar, h]

theorem toNat_lt_of_isPlainChar (h : isPlainChar c) : c.toNat < 128 := by
  simp only [isPlainChar, isNameChar, Bool.or_eq_true, beq_iff_eq, List.contains_iff_mem] at h
  obtain (h | rfl) | h := h
  case inl.inl => exact Descriptor.toNat_lt_of_isAlphanum h
  case inl.inr => decide
  case inr =>
    have : ∀ d ∈ ['@', '%', '+', '=', ':', ',', '.', '/', '-'], d.toNat < 128 := by simp
    exact this c h

theorem isFunctionChar_of_isPlainChar (h : isPlainChar c) : isFunctionChar c := by
  have hall : ∀ n : Fin 128, isPlainChar (Char.ofNat n) → isFunctionChar (Char.ofNat n) := by
    decide +kernel
  have := hall ⟨c.toNat, toNat_lt_of_isPlainChar h⟩
  rw [Char.ofNat_toNat] at this
  exact this h

theorem not_isLineBreak_of_isFunctionChar (h : isFunctionChar c) : isLineBreak c = false := by
  rw [Bool.eq_false_iff]
  intro hb
  simp [isFunctionChar, isBlank_of_isLineBreak hb] at h

theorem oneLine_of_isFunctionName (h : isFunctionName s.toList) : OneLine s := by
  simp only [isFunctionName, Bool.and_eq_true, List.all_eq_true] at h
  exact fun c hc => not_isLineBreak_of_isFunctionChar (h.2 c hc)

theorem flat_of_isNameChar {s : List Char} (h : ∀ c ∈ s, isNameChar c) : Flat s :=
  fun c hc => not_isLineBreak_of_isFunctionChar
    (isFunctionChar_of_isPlainChar (isPlainChar_of_isNameChar (h c hc)))

theorem isNameChar_of_isDigit (h : c.isDigit) : isNameChar c := by
  simp [isNameChar, Char.isAlphanum, h]

theorem isNameChar_of_mem_natRepr (h : c ∈ n.repr.toList) : isNameChar c := by
  rw [Nat.repr, String.toList_ofList] at h
  exact isNameChar_of_isDigit (Nat.isDigit_of_mem_toDigits (by decide) (by decide) h)

@[simp] theorem oneLine_natRepr : OneLine n.repr :=
  flat_of_isNameChar fun _ => isNameChar_of_mem_natRepr

@[simp] theorem oneLine_intRepr {i : Int} : OneLine i.repr := by
  cases i
  case ofNat n   => exact oneLine_natRepr
  case negSucc n => exact oneLine_append.mpr ⟨by decide, oneLine_natRepr⟩

theorem isNameChar_of_mem_nearestName (h : c ∈ (nearestName s).toList) : isNameChar c := by
  rw [nearestName, String.toList_ofList] at h
  obtain ⟨d, _, rfl⟩ := List.mem_map.mp h
  split
  case isTrue h => exact h
  case isFalse  => decide

theorem isNameChar_of_isName {cs : List Char} (h : isName cs) : ∀ c ∈ cs, isNameChar c := by
  cases cs
  case nil => simp
  case cons c cs =>
    simp only [isName, isNameStart, Bool.and_eq_true, Bool.or_eq_true, List.all_eq_true] at h
    refine List.forall_mem_cons.mpr ⟨?_, h.2⟩
    simp only [isNameChar, Char.isAlphanum, Bool.or_eq_true]
    exact h.1.imp_left .inl

@[simp] theorem oneLine_quote : OneLine (quote s) ↔ OneLine s := by
  unfold quote
  split
  case isTrue h =>
    have hs : s.toList = [] := List.isEmpty_iff.mp h
    exact iff_of_true (by decide) (by rw [OneLine, hs]; exact flat_nil)
  case isFalse =>
    split
    case isTrue  => rfl
    case isFalse =>
      rw [oneLine_ofList]
      constructor
      case mp =>
        intro h c hc
        refine h c (List.mem_append_left _ (List.mem_cons_of_mem _ ?_))
        refine List.mem_flatMap.mpr ⟨c, hc, ?_⟩
        unfold quoteChar
        split <;> simp_all
      case mpr =>
        intro h c hc
        simp only [List.mem_append, List.mem_cons, List.mem_flatMap, List.not_mem_nil,
          or_false] at hc
        rcases hc with (rfl | ⟨d, hd, hc⟩) | rfl
        case inl.inl => decide
        case inr     => decide
        case inl.inr =>
          unfold quoteChar at hc
          split at hc
          case isTrue  => exact (by decide : Flat ['\'', '"', '\'', '"', '\'']) c hc
          case isFalse => exact List.mem_singleton.mp hc ▸ h d hd

@[simp] theorem oneLine_doubleQuoted : OneLine (doubleQuoted s) ↔ OneLine s := by
  simp [doubleQuoted, show OneLine "\"" from by decide]

@[simp] theorem oneLine_expand : OneLine (expand s) ↔ OneLine s := by
  simp [expand, show OneLine "$\x7b" from by decide, show OneLine "\x7d" from by decide]

@[simp] theorem oneLine_expandQuoted : OneLine (expandQuoted s) ↔ OneLine s := by
  simp [expandQuoted]

end Shell

theorem Param.isName_varName (p : Param) {stem : String} (h : Shell.isName stem.toList) :
    Shell.isName (p.varName stem).toList := by
  have hname : ∀ c ∈ (Shell.nearestName p.name).toList, Shell.isNameChar c :=
    fun _ => Shell.isNameChar_of_mem_nearestName
  have hmark : ∀ c ∈ "_".toList, Shell.isNameChar c := List.forall_mem_singleton.mpr rfl
  cases hs : stem.toList
  case nil => simp [hs, Shell.isName] at h
  case cons c cs =>
    simp only [hs, Shell.isName, Bool.and_eq_true, List.all_eq_true] at h
    simp only [varName, String.toList_append, hs, List.cons_append, Shell.isName, Bool.and_eq_true,
      List.all_append, List.all_eq_true]
    exact ⟨h.1, ⟨h.2, hmark⟩, hname⟩

namespace Param.Flat

variable {p : Param}

theorem forms (h : p.Flat) : ∀ f ∈ p.forms, OneLine f :=
  fun f hf => (Param.mem_forms hf).elim (h.long f) (h.short f)

theorem primaryForm (h : p.Flat) : OneLine p.primaryForm :=
  oneLine_headD h.forms h.name

theorem upperName (h : p.Flat) (replaced : List Char) : OneLine (p.upperName replaced) := by
  rw [Param.upperName, oneLine_ofList]
  intro c hc
  obtain ⟨d, hd, rfl⟩ := List.mem_map.mp hc
  split
  case isTrue  => decide
  case isFalse => exact flat_upper h.name d hd

theorem placeholder (h : p.Flat) : OneLine p.placeholder := by
  have hangles {s : String} (hs : OneLine s) : OneLine ("<" ++ s ++ ">") := by
    simpa [show OneLine "<" from by decide, show OneLine ">" from by decide] using hs
  unfold Param.placeholder
  split
  case h_1 => exact hangles (h.upperName _)
  case h_2 =>
    refine oneLine_intercalate (by decide) fun s hs => ?_
    obtain ⟨n, hn, rfl⟩ := List.mem_map.mp hs
    exact hangles (h.valueNames n hn)

theorem label (h : p.Flat) : OneLine p.label := by
  unfold Param.label
  split
  case h_1 =>
    have := oneLine_headD h.valueNames (h.upperName ['-', '.'])
    simpa [Param.valueLabel, show OneLine "<" from by decide, show OneLine ">" from by decide]
  case h_2 => exact h.primaryForm
  case h_3 => simpa [show OneLine " " from by decide] using ⟨h.primaryForm, h.placeholder⟩

end Param.Flat

end ShellArgs
