import ShellArgs.Proofs.Routine.Arms
import ShellArgs.Proofs.Shell.Reading

-- Every spelling of an option or flag leads to its own arms, where the shell reads the arms of
-- a command one after the other.

namespace ShellArgs

open Outcome Shell

-- A word that is a form, or a form with a value attached.
def Spells (f w : String) : Prop :=
  w = f ∨ Text.startsWith w (f ++ "=")

namespace IsForm

variable {f g w : String}

-- An equals sign can only be the last character, right after the dash.
theorem exists_tail (h : IsForm f) : ∃ x xs, f.toList = '-' :: x :: xs ∧ '=' ∉ xs := by
  cases h
  case short c hc     => exact ⟨c, [], by simp, by simp⟩
  case long x y cs he => exact ⟨x, y :: cs, by simp, fun h => he (List.mem_cons_of_mem x h)⟩

theorem ne_empty (h : IsForm f) : f ≠ "" := by
  rintro rfl
  have ⟨_, _, hx, _⟩ := h.exists_tail
  cases hx

theorem not_startsWith (hf : IsForm f) (hg : IsForm g) : ¬ Text.startsWith f (g ++ "=") := by
  have ⟨x, xs, hx, hne⟩ := hf.exists_tail
  have ⟨y, ys, hy, _⟩ := hg.exists_tail
  rw [Text.startsWith_iff, String.toList_append, hx, hy]
  simp only [List.cons_append, List.cons_prefix_cons, true_and, not_and]
  exact fun _ h => hne (h.subset (List.mem_append_right ys List.mem_cons_self))

-- The value begins after the same equals sign, whichever form it is attached to.
theorem eq_of_startsWith (hf : IsForm f) (hg : IsForm g) (hwf : Text.startsWith w (f ++ "="))
    (hwg : Text.startsWith w (g ++ "=")) : f = g := by
  have ⟨x, xs, hx, hxs⟩ := hf.exists_tail
  have ⟨y, ys, hy, hys⟩ := hg.exists_tail
  have ⟨u, hu⟩ := Text.startsWith_iff.mp hwf
  have ⟨v, hv⟩ := Text.startsWith_iff.mp hwg
  have he := hu.trans hv.symm
  simp only [String.toList_append, hx, hy, List.cons_append, List.append_assoc, List.cons.injEq,
    true_and] at he
  have htail := congrArg (List.takeWhile (· != '=')) he.2
  simp [List.takeWhile_append_of_pos (Text.bne_of_not_mem hxs),
    List.takeWhile_append_of_pos (Text.bne_of_not_mem hys)] at htail
  rw [← String.toList_inj, hx, hy, he.1, htail]

-- No word spells two forms.
theorem eq_of_spells (hf : IsForm f) (hg : IsForm g) (hwf : Spells f w) (hwg : Spells g w) : f = g := by
  cases hwf <;> cases hwg
  case inl.inl h h' => exact h.symm.trans h'
  case inl.inr h h' => exact absurd (h ▸ h') (hf.not_startsWith hg)
  case inr.inl h h' => exact absurd (h' ▸ h) (hg.not_startsWith hf)
  case inr.inr h h' => exact hf.eq_of_startsWith hg h h'

end IsForm

namespace Routine

-- Whether a word matches the line that opens an arm, as the shell reads this line.
def Arm.takes (a : Arm) (w : String) : Bool :=
  (readPatterns [] .bare (armLine a.patterns).written.toList).any (·.any (·.covers w))

variable {o : Options} {c : Command} {cs : List Command} {w f v : String} {a : Arm} {p q : Param}

theorem written_armLine (ps : List Pattern) : (armLine ps).written = Pattern.alternatives ps := by
  have hline : (armLine ps).written = if Pattern.alternatives ps = "" then "" else
      String.ofList (List.replicate (4 * 0) ' ') ++ Pattern.alternatives ps := rfl
  rw [hline]
  split
  case isTrue h => exact h.symm
  case isFalse  => rw [Nat.mul_zero, List.replicate_zero, String.ofList_nil, String.empty_append]

theorem Arm.takes_eq_covers (h : w ≠ "") : a.takes w = a.covers w := by
  rw [takes, written_armLine]
  by_cases hp : a.patterns = []
  case pos =>
    have hread : readPatterns [] .bare (Pattern.alternatives []).toList = some [⟨[]⟩] := by decide
    rw [hp, hread]
    simp [Pattern.covers, covers, hp, h]
  case neg =>
    rw [readPatterns_alternatives hp]
    simp [covers, Function.comp_def, Pattern.covers, Pattern.characters, Glob.covers_characters]

theorem find?_takes (h : w ≠ "") (as : List Arm) : as.find? (·.takes w) = as.find? (·.covers w) := by
  congr 1
  funext a
  exact Arm.takes_eq_covers h

theorem paramArms_eq (p : Param) : ∃ x y, paramArms p =
    [⟨p.forms.map .exactly, x⟩, ⟨p.forms.map fun f => .startingWith (f ++ "="), y⟩] := by
  unfold paramArms
  split
  case isTrue  => exact ⟨_, _, rfl⟩
  case isFalse => exact ⟨_, _, rfl⟩

@[simp] theorem Arm.covers_exactly {fs : List String} {act : Action} :
    covers ⟨fs.map .exactly, act⟩ w = true ↔ w ∈ fs := by
  simp [covers]

@[simp] theorem Arm.covers_startingWith {fs : List String} {act : Action} :
    covers ⟨fs.map fun f => .startingWith (f ++ "="), act⟩ w = true ↔
      ∃ f ∈ fs, Text.startsWith w (f ++ "=") := by
  simp [covers]

theorem exists_spells_of_covers (ha : a ∈ paramArms p) (hw : a.covers w) :
    ∃ f ∈ p.forms, Spells f w := by
  have ⟨x, y, he⟩ := paramArms_eq p
  rw [he] at ha
  cases List.mem_cons.mp ha
  case inl h => exact ⟨w, by simpa [h] using hw, .inl rfl⟩
  case inr h =>
    cases List.mem_singleton.mp h
    have ⟨f, hf, hw⟩ := Arm.covers_startingWith.mp hw
    exact ⟨f, hf, .inr hw⟩

-- The arms of other options and flags leave a word alone that spells a form.
theorem find?_arms_of_spells (hc : c.Formed) (hp : p ∈ c.options) (hf : f ∈ p.forms) (hw : Spells f w)
    (h : (paramArms p).find? (·.covers w) = some a) : (arms c cs o).find? (·.covers w) = some a := by
  have ⟨ps, qs, he, hnot⟩ := List.eq_append_cons_of_mem hp
  have hnone : (ps.flatMap paramArms).find? (·.covers w) = none := by
    rw [List.find?_eq_none]
    intro b hb hbw
    have ⟨q, hq, hb⟩ := List.mem_flatMap.mp hb
    have ⟨g, hg, hwg⟩ := exists_spells_of_covers hb hbw
    have hq' : q ∈ c.options := he ▸ List.mem_append_left _ hq
    cases (hc.isForm hp hf).eq_of_spells (hc.isForm hq' hg) hw hwg
    cases (hc.find hp hf).symm.trans (hc.find hq' hg)
    exact hnot hq
  simp [arms, he, List.find?_append, hnone, h]

theorem find?_paramArms_of_free (hc : c.Formed) (hf : IsForm f) (hn : c.findOption? f = none) :
    (c.options.flatMap paramArms).find? (·.covers f) = none := by
  rw [List.find?_eq_none]
  intro a ha hw
  have ⟨p, hp, ha⟩ := List.mem_flatMap.mp ha
  have ⟨g, hg, hfg⟩ := exists_spells_of_covers ha hw
  cases hf.eq_of_spells (hc.isForm hp hg) (.inl rfl) hfg
  cases hn.symm.trans (hc.find hp hg)

-- Each spelling has an arm of its own, and no arm before it takes the word. An option or flag
-- has its first arm for its forms alone and its second one for forms with a value, whatever the
-- value is.
theorem arms_reached {text : String} {r : Report} (h : check text = .ok r) (ho : r.ok)
    (hm : c ∈ r.tree.nodes) (o : Options) :
    ∃ cs, r.tree.childrenOf c = .ok cs ∧
      (∀ p ∈ c.options, ∃ first second, paramArms p = [first, second] ∧ ∀ f ∈ p.forms,
        (arms c cs o).find? (·.takes f) = some first ∧
          ∀ v, (arms c cs o).find? (·.takes (f ++ "=" ++ v)) = some second) ∧
      (∀ f ∈ helpForms c o, (arms c cs o).find? (·.takes f) =
        some ⟨(helpForms c o).map .exactly, .showUsage c.index⟩) ∧
      ∀ f ∈ versionForms c o, (arms c cs o).find? (·.takes f) =
        some ⟨(versionForms c o).map .exactly, .showVersion (o.prog ++ " " ++ c.version.getD "")⟩ := by
  have hc := formed_of_check h ho hm
  refine ⟨_, (sound_of_check h).joined.childrenOf_eq_ok hm, ?_, ?_, ?_⟩
  case refine_1 =>
    intro p hp
    have ⟨x, y, he⟩ := paramArms_eq p
    refine ⟨_, _, he, fun f hf => ⟨?_, fun v => ?_⟩⟩
    · rw [find?_takes (hc.isForm hp hf).ne_empty]
      refine find?_arms_of_spells hc hp hf (.inl rfl) ?_
      simp [he, hf]
    · rw [find?_takes (by simp)]
      have hs : Text.startsWith (f ++ "=" ++ v) (f ++ "=") := Text.startsWith_append (f ++ "=") v
      have hn : f ++ "=" ++ v ∉ p.forms :=
        fun hm => (hc.isForm hp hm).not_startsWith (hc.isForm hp hf) hs
      refine find?_arms_of_spells hc hp hf (.inr hs) ?_
      rw [he, List.find?_cons_of_neg (by simpa using hn), List.find?_cons_of_pos]
      exact Arm.covers_startingWith.mpr ⟨f, hf, hs⟩
  case refine_2 =>
    intro f hf
    have ⟨hform, _, hn⟩ := isForm_of_mem_helpForms hf
    have hne : helpForms c o ≠ [] := List.ne_nil_of_mem hf
    rw [find?_takes hform.ne_empty]
    simp [arms, List.find?_append, find?_paramArms_of_free hc hform hn, hne, hf]
  case refine_3 =>
    intro f hf
    obtain ⟨hform, hf', hn⟩ := isForm_of_mem_versionForms hf
    have hne : versionForms c o ≠ [] := List.ne_nil_of_mem hf
    have hhelp : f ∉ helpForms c o := by
      intro h
      have ⟨_, h, _⟩ := isForm_of_mem_helpForms h
      obtain rfl | rfl := hf' <;> simp at h
    rw [find?_takes hform.ne_empty]
    simp [arms, List.find?_append, find?_paramArms_of_free hc hform hn, hne, hf]
    split <;> simp [hhelp]

theorem arms_reached_equals_flag :
    ∃ r c cs p, check "# @flag -=\n# @option -? --out\n" = .ok r ∧ r.ok ∧ c ∈ r.tree.nodes ∧
      r.tree.childrenOf c = .ok cs ∧ p ∈ c.options ∧ p.forms = ["-="] ∧
      (arms c cs {}).find? (·.takes "-=") = some ⟨[.exactly "-="], .raiseFlag p⟩ ∧
      (arms c cs {}).find? (·.takes "-==1") = some ⟨[.startingWith "-=="], .refuseValue p⟩ ∧
      (arms c cs {}).find? (·.takes "--help") =
        some ⟨[.exactly "-h", .exactly "--help"], .showUsage 0⟩ := by
  let p : Param := { name := "=", kind := .flag, short := some "-=", line := 1 }
  let q : Param :=
    { name := "out", kind := .option, short := some "-?", long := some "--out", line := 2 }
  let c : Command := { index := 0, params := [p, q] }
  let r : Report := { tree := ⟨[c]⟩, diagnostics := [], directives := 2 }
  have h : check "# @flag -=\n# @option -? --out\n" = .ok r := by decide +kernel
  have hc : c ∈ r.tree.nodes := List.mem_singleton.mpr rfl
  have hp : p ∈ c.options := by decide
  have ⟨cs, hcs, hforms, hhelp, _⟩ := arms_reached h rfl hc {}
  have ⟨first, second, he, hform⟩ := hforms p hp
  cases he
  have ⟨hplain, hattached⟩ := hform "-=" (by decide)
  exact ⟨r, c, cs, p, h, rfl, hc, hcs, hp, by decide, hplain, hattached "1", hhelp "--help" (by decide)⟩

end Routine

end ShellArgs
