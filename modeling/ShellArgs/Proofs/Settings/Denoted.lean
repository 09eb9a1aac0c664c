import ShellArgs.Proofs.Decimal.Spelling
import ShellArgs.Settings.Edit

-- Texts that denote a value of the type that a setting has. Numbers are what the text denotes, or
-- they are refused. A flag takes every text, and those that denote neither value turn it off.

namespace ShellArgs.Settings

open Decimal (Padded IntBody FloatBody)

-- The text denotes a value of the same type as the current one.
inductive Denotes (text : String) : Json → Json → Prop
  | yes {b : Bool} (h : Json.lowered text ∈ ["true", "1", "yes", "on"]) :
      Denotes text (.bool b) (.bool true)
  | no {b : Bool} (h : Json.lowered text ∈ ["false", "0", "no", "off"]) :
      Denotes text (.bool b) (.bool false)
  | int {n m : Int} (h : Padded IntBody text.toList m) : Denotes text (.int n) (.int m)
  | float {x y : Binary64} (h : Padded FloatBody text.toList y) : Denotes text (.float x) (.float y)

-- The new value is what the text denotes, and a text that denotes nothing is refused.
structure Faithful (key : String) (current : Json) (text : String) : Prop where
  denoted : ∀ v, coerce key current text = .ok v ↔ Denotes text current v
  refused : (¬∃ v, Denotes text current v) → ∃ cause, coerce key current text = .error cause

variable {key text : String} {current : Json} {v : Json} {b : Bool} {n : Int} {x : Binary64}

theorem Faithful.of_refused (hd : ∀ v, Denotes text current v → coerce key current text = .ok v)
    (hn : (¬∃ v, Denotes text current v) → ∃ cause, coerce key current text = .error cause) :
    Faithful key current text := by
  refine ⟨fun v => ⟨?_, hd v⟩, hn⟩
  intro hv
  by_cases hw : ∃ w, Denotes text current w
  case pos =>
    obtain ⟨w, hw⟩ := hw
    cases hv.symm.trans (hd w hw)
    exact hw
  case neg =>
    obtain ⟨cause, herror⟩ := hn hw
    cases hv.symm.trans herror

section Flags

theorem isTrueWord_iff : isTrueWord text ↔ Json.lowered text ∈ ["true", "1", "yes", "on"] := by
  have hwords : trueWords.Perm ["true", "1", "yes", "on"] := by decide
  rw [isTrueWord, List.contains_iff_mem, hwords.mem_iff]

-- No text denotes both values.
theorem isTrueWord_of_no (h : Json.lowered text ∈ ["false", "0", "no", "off"]) :
    isTrueWord text = false := by
  have hapart : ∀ w ∈ ["false", "0", "no", "off"], trueWords.contains w = false := by decide
  exact hapart _ h

theorem coerce_bool (h : Denotes text (.bool b) v) : coerce key (.bool b) text = .ok v := by
  cases h with
  | yes h => rw [coerce_bool_eq, isTrueWord_iff.mpr h]
  | no h  => rw [coerce_bool_eq, isTrueWord_of_no h]

-- A flag takes what denotes neither value too.
theorem coerce_bool_of_not_denotes (h : ¬∃ v, Denotes text (.bool b) v) :
    coerce key (.bool b) text = .ok (.bool false) := by
  have hword : isTrueWord text = false := by
    by_contra hw
    exact h ⟨_, .yes (isTrueWord_iff.mp (Bool.of_not_eq_false hw))⟩
  rw [coerce_bool_eq, hword]

theorem faithful_bool_iff : Faithful key (.bool b) text ↔ ∃ v, Denotes text (.bool b) v := by
  constructor
  case mp =>
    intro h
    by_contra hn
    obtain ⟨cause, herror⟩ := h.refused hn
    cases herror
  case mpr =>
    intro h
    exact .of_refused (fun _ => coerce_bool) fun hn => absurd h hn

end Flags

section Numbers

theorem coerce_int (h : Denotes text (.int n) v) : coerce key (.int n) text = .ok v := by
  cases h with
  | int h =>
    rw [coerce_int_eq, Decimal.readInt?_eq_some_iff.mpr h]
    rfl

theorem coerce_int_of_not_denotes (h : ¬∃ v, Denotes text (.int n) v) :
    coerce key (.int n) text = .error (.noInteger key text) := by
  rw [coerce_int_eq]
  cases hm : Decimal.readInt? text.toList
  case some => exact absurd ⟨_, .int (Decimal.readInt?_eq_some_iff.mp hm)⟩ h
  case none => rfl

theorem coerce_float (h : Denotes text (.float x) v) : coerce key (.float x) text = .ok v := by
  cases h with
  | float h =>
    rw [coerce_float_eq, Decimal.readFloat?_eq_some_iff.mpr h]
    rfl

theorem coerce_float_of_not_denotes (h : ¬∃ v, Denotes text (.float x) v) :
    coerce key (.float x) text = .error (.noNumber key text) := by
  rw [coerce_float_eq]
  cases hy : Decimal.readFloat? text.toList
  case some => exact absurd ⟨_, .float (Decimal.readFloat?_eq_some_iff.mp hy)⟩ h
  case none => rfl

end Numbers

-- Where a new value is what its text denotes, and what it is elsewhere. Only flags make a
-- difference between the two.
theorem denoted_or_refused (key text : String) :
    (∀ b, (Faithful key (.bool b) text ↔ ∃ v, Denotes text (.bool b) v) ∧
      ((¬∃ v, Denotes text (.bool b) v) → coerce key (.bool b) text = .ok (.bool false))) ∧
    (∀ n, Faithful key (.int n) text ∧
      ((¬∃ v, Denotes text (.int n) v) →
        coerce key (.int n) text = .error (.noInteger key text))) ∧
    (∀ x, Faithful key (.float x) text ∧
      ((¬∃ v, Denotes text (.float x) v) →
        coerce key (.float x) text = .error (.noNumber key text))) := by
  refine ⟨fun b => ?bool, fun n => ?int, fun x => ?float⟩
  case bool  => exact ⟨faithful_bool_iff, coerce_bool_of_not_denotes⟩
  case int   =>
    exact ⟨.of_refused (fun _ => coerce_int) fun h => ⟨_, coerce_int_of_not_denotes h⟩,
      coerce_int_of_not_denotes⟩
  case float =>
    exact ⟨.of_refused (fun _ => coerce_float) fun h => ⟨_, coerce_float_of_not_denotes h⟩,
      coerce_float_of_not_denotes⟩

theorem denoted_or_refused_maybe : ¬Faithful "compile.add_help" (.bool true) "maybe" ∧
    coerce "compile.add_help" (.bool true) "maybe" = .ok (.bool false) := by
  have ⟨hiff, hfalse⟩ := (denoted_or_refused "compile.add_help" "maybe").1 true
  have hnone : ¬∃ v, Denotes "maybe" (.bool true) v := by
    rintro ⟨_, h | h⟩
    all_goals exact absurd h (by decide)
  exact ⟨hiff.not.mpr hnone, hfalse hnone⟩

end ShellArgs.Settings
