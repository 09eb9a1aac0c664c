import Mathlib.Data.List.Nodup
import ShellArgs.Proofs.Json.Distinct
import ShellArgs.Proofs.Outcome
import ShellArgs.Proofs.Settings.Setting
import ShellArgs.Settings.Layers

-- Records laid over records, and single settings over those. What is laid over a record replaces the
-- settings that it has values for, and leaves the others and the sections what they are.

namespace ShellArgs

namespace Settings

variable {base fs : Ordered Json} {category : String} {o : Override} {os : List Override}

theorem hasSection_overlay_iff (hn : fs.names.Nodup) (hb : HasSection base category) :
    HasSection (Json.overlay base fs) category ↔ HasRoom fs category := by
  have hget : (Json.overlay base fs).get? category = _ := Json.get?_overlay hn
  cases h : fs.get? category with
  | none   => simpa [HasRoom, HasSection, hget, h] using hb
  | some v => simpa [HasRoom, HasSection, hget, h] using Json.isObject_overlayValue_iff

theorem hasSection_put_iff {key : String} {inner : Ordered Json} (h : HasSection fs key) :
    HasSection (fs.put key (.obj inner)) category ↔ HasSection fs category := by
  by_cases hk : category = key
  · subst hk
    simpa [HasSection] using h
  · simp [HasSection, Ordered.get?_put_of_ne hk]

theorem Override.apply_eq_ok_iff {fs' : Ordered Json} : o.apply fs = .ok fs' ↔
    ∃ inner, fs.get? o.category = some (.obj inner) ∧
      fs' = fs.put o.category (.obj (Ordered.put inner o.name o.value)) := by
  unfold apply
  split
  case h_1 inner hi => simp [hi, eq_comm]
  case h_2 hn => simpa using fun inner hi => absurd hi (hn inner)

theorem Override.apply_eq_error_iff {e : LayerError} : o.apply fs = .error e ↔
    ¬HasSection fs o.category ∧ e = .noSection o.category := by
  unfold apply
  split
  case h_1 inner hi => simp [HasSection, hi]
  case h_2 hn => simpa [HasSection, eq_comm] using fun _ => hn

theorem Override.hasSection_apply_iff {fs' : Ordered Json} (h : o.apply fs = .ok fs') :
    HasSection fs' category ↔ HasSection fs category := by
  obtain ⟨inner, hi, rfl⟩ := apply_eq_ok_iff.mp h
  exact hasSection_put_iff ⟨inner, hi⟩

-- Overriding leaves sections what they are. So all that are written into are objects at the start.
theorem exists_foldlM_apply_iff :
    (∃ fs', os.foldlM Override.apply fs = .ok fs') ↔ ∀ o ∈ os, HasSection fs o.category := by
  induction os generalizing fs with
  | nil => simp
  | cons o os hi =>
    rw [List.foldlM_cons, List.forall_mem_cons]
    cases h : o.apply fs with
    | error e =>
      have ⟨hn, _⟩ := Override.apply_eq_error_iff.mp h
      simp [hn, bind, Except.bind]
    | ok fs₁ =>
      have ⟨inner, hin, _⟩ := Override.apply_eq_ok_iff.mp h
      have ho : HasSection fs o.category := ⟨inner, hin⟩
      simp [hi, ho, Override.hasSection_apply_iff h]

end Settings

open Settings (HasSection HasRoom)

namespace Setting

variable {s : Setting} {base fs : Ordered Json} {v : Json}

theorem inRecord_of_section {inner : Ordered Json} (h : fs.get? s.category = some (.obj inner)) :
    s.inRecord fs = inner.get? s.name := by
  simp [inRecord, h, Json.field?]

theorem inRecord_overlay (hd : Json.Distinct (.obj fs)) (hr : HasRoom fs s.category)
    (hb : HasSection base s.category) (hleaf : ∀ w, s.inRecord base ≠ some (.obj w)) :
    s.inRecord (Json.overlay base fs) = (s.inRecord fs <|> s.inRecord base) := by
  have ⟨bs, hb⟩ := hb
  have hget : (Json.overlay base fs).get? s.category = _ := Json.get?_overlay hd.names_nodup
  obtain hr | ⟨inner, hr⟩ := hr
  · simp [inRecord, hr, hget]
  · have hn := (hd.value hr).names_nodup
    have hsection :
        (Json.overlay base fs).get? s.category = some (.obj (Json.overlay bs inner)) := by
      simp [hget, hr, hb, Json.overlayValue]
    have hsame : Json.overlayValue (s.inRecord base) = id :=
      funext fun _ => Json.overlayValue_of_leaf hleaf
    rw [inRecord_of_section hb] at hsame ⊢
    rw [inRecord_of_section hsection, inRecord_of_section hr, Json.get?_overlay hn, hsame,
      Option.map_id]
    rfl

-- A setting as it is set in a layer above the files.
def override (s : Setting) (v : Json) : Settings.Override where
  category := s.category
  name     := s.name
  value    := v

def overrides (f : Setting → Option Json) (ss : List Setting) : List Settings.Override :=
  ss.filterMap fun s => (f s).map s.override

theorem hasSection_toJson {c : Settings} (s : Setting) :
    HasSection (c.toJson.fields?.getD []) s.category := by
  cases s <;> exact ⟨_, rfl⟩

theorem forall_mem_overrides {f : Setting → Option Json} {P : String → Prop} :
    (∀ o ∈ overrides f all, P o.category) ↔ ∀ s : Setting, (f s).isSome → P s.category := by
  constructor
  · intro h s hs
    have ⟨v, hv⟩ := Option.isSome_iff_exists.mp hs
    exact h (s.override v) (List.mem_filterMap.mpr ⟨s, mem_all s, by simp [hv]⟩)
  · intro h o ho
    have ⟨s, _, hs⟩ := List.mem_filterMap.mp ho
    have ⟨v, hv, ho⟩ := Option.map_eq_some_iff.mp hs
    exact ho ▸ h s (Option.isSome_of_eq_some hv)

theorem eq_of_name_eq {s' : Setting} (h : s.name = s'.name) : s = s' :=
  List.inj_on_of_nodup_map (by decide : (all.map name).Nodup) (mem_all s) (mem_all s') h

theorem exists_apply (h : HasSection fs s.category) : ∃ fs', (s.override v).apply fs = .ok fs' ∧
    s.inRecord fs' = some v ∧ ∀ s' ≠ s, s'.inRecord fs' = s'.inRecord fs := by
  have ⟨inner, hi⟩ := h
  refine ⟨_, Settings.Override.apply_eq_ok_iff.mpr ⟨inner, hi, rfl⟩, ?_, fun s' hne => ?_⟩
  · simp [inRecord, override, Json.field?]
  · by_cases hc : s'.category = s.category
    · have hn : s'.name ≠ s.name := fun hn => hne (eq_of_name_eq hn)
      simp [inRecord, override, hc, hi, Json.field?, Ordered.get?_put_of_ne hn]
    · simp [inRecord, override, Ordered.get?_put_of_ne hc]

-- A layer that is laid over a record with all sections.
theorem exists_foldlM_overrides {f : Setting → Option Json} {ss : List Setting} (hss : ss.Nodup)
    (h : ∀ s : Setting, HasSection fs s.category) :
    ∃ fs', (overrides f ss).foldlM Settings.Override.apply fs = .ok fs' ∧
      (∀ s : Setting, HasSection fs' s.category) ∧
      ∀ s, s.inRecord fs' = ((if s ∈ ss then f s else none) <|> s.inRecord fs) := by
  induction ss generalizing fs with
  | nil => exact ⟨fs, rfl, h, by simp⟩
  | cons s ss hi =>
    have ⟨hs, hss⟩ := List.nodup_cons.mp hss
    cases hv : f s with
    | none =>
      have ⟨fs', hf, hsections, hrecord⟩ := hi hss h
      refine ⟨fs', by simpa [overrides, hv] using hf, hsections, fun s' => ?_⟩
      by_cases he : s' = s
      · subst he
        simp [hrecord, hv, hs]
      · simp [hrecord, he]
    | some v =>
      have ⟨fs₁, hone, hself, hother⟩ := exists_apply (v := v) (h s)
      have hsections (s : Setting) := (Settings.Override.hasSection_apply_iff hone).mpr (h s)
      have ⟨fs', hf, hsections, hrecord⟩ := hi hss hsections
      refine ⟨fs', by simpa [overrides, hv, hone] using hf, hsections, fun s' => ?_⟩
      by_cases he : s' = s
      · subst he
        simp [hrecord, hself, hv, hs]
      · simp [hrecord, he, hother s' he]

end Setting

end ShellArgs
