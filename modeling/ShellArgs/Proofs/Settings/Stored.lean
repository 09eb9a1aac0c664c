import ShellArgs.Proofs.Json.RoundTrip
import ShellArgs.Proofs.Settings.Overrides
import ShellArgs.Settings.Edit

namespace ShellArgs

open Outcome

theorem Ordered.mem_of_get? {α : Type} {t : Ordered α} {n : String} {v : α}
    (h : t.get? n = some v) : (n, v) ∈ t := by
  obtain ⟨before, after, rfl, _⟩ := List.lookup_eq_some_iff.mp h
  exact List.mem_append_right _ List.mem_cons_self

namespace Settings

-- Settings that some record is read as.
def Valid (c : Settings) : Prop :=
  ∃ v, (check v).toExcept = .ok c

variable {c d : Settings} {source : Source}

theorem Valid.read?_write (h : c.Valid) (s : Setting) :
    s.read? (s.write (s.get c)) = some (s.get c) := by
  obtain ⟨v, h⟩ := h
  have h := Checked.toExcept_eq_ok_iff.mp h
  obtain ⟨fs, rfl, hroom⟩ := Setting.hasRoom_of_accepts h
  exact Setting.read?_write_of_reading ((Setting.accepts_check_iff hroom).mp h s)

theorem check_toJson (h : c.Valid) : (check c.toJson).toExcept = .ok c :=
  (Setting.check_eq_ok_iff fun s => .inr (Setting.hasSection_toJson s)).mpr fun s => by
    rw [Setting.inRecord_toJson]
    exact h.read?_write s

theorem valid_of_ofUser (h : ofUser source = .ok c) : c.Valid := by
  unfold ofUser at h
  split at h
  case isTrue =>
    cases h
    exact ⟨.obj [], rfl⟩
  case isFalse =>
    split at h
    case h_1 => cases h
    case h_2 v _ =>
      split at h
      case h_1 hc =>
        cases h
        exact ⟨v, hc⟩
      case h_2 => cases h

-- An infinite time is written as a word that is read again.
theorem Valid.rereads (h : c.Valid) (hf : c.hookTimeout.isFinite → Json.Rereads c.hookTimeout) :
    Json.Rereads c.hookTimeout := by
  have hp : c.hookTimeout.isPositive := by
    have h := h.read?_write .hookTimeout
    simp only [Setting.read?, Setting.write, Json.float?, Option.filter_eq_some_iff] at h
    exact h.2
  generalize c.hookTimeout = x at hf hp ⊢
  cases x
  case finite => exact hf rfl
  case infinite negative =>
    cases negative
    case false => rfl
    case true  => cases hp
  case notANumber => cases hp

theorem readable_toJson (h : Json.Rereads c.hookTimeout) : c.toJson.Readable := by
  refine .obj (by decide : ["compile", "completion", "output"].Nodup) ?_
  refine List.forall_mem_cons.mpr ⟨?compile, List.forall_mem_cons.mpr ⟨?completion,
    List.forall_mem_singleton.mpr ?output⟩⟩
  case compile =>
    refine .obj (by decide : ["prog", "prefix", "add_help", "add_version"].Nodup) ?_
    exact List.forall_mem_cons.mpr ⟨.raw _, List.forall_mem_cons.mpr ⟨.raw (.unicode _),
      List.forall_mem_cons.mpr ⟨.bool _, List.forall_mem_singleton.mpr (.bool _)⟩⟩⟩
  case completion =>
    refine .obj (by decide : ["hook_timeout"].Nodup) ?_
    exact List.forall_mem_singleton.mpr (.float h)
  case output =>
    refine .obj (by decide : ["format"].Nodup) ?_
    exact List.forall_mem_singleton.mpr (.raw _)

-- What is stored is loaded again.
theorem ofUser_stored (h : c.Valid) (ht : Json.Rereads c.hookTimeout) :
    ofUser (.text c.stored) = .ok c := by
  have hparse : Source.json? (.text c.stored) = some c.toJson :=
    (readable_toJson ht).parse?_indented .ascii
  have hne : Source.text c.stored ≠ .absent := Source.noConfusion
  rw [ofUser, if_neg hne, hparse]
  dsimp only
  rw [check_toJson h]

end Settings

namespace Setting

variable {s : Setting} {c d : Settings} {v w : Json} {key value category name : String}

-- The record of settings has sections, in which there are the settings and nothing else.
theorem exists_of_get?_toJson {inner : Ordered Json}
    (hc : Ordered.get? (c.toJson.fields?.getD []) category = some (.obj inner))
    (hn : inner.get? name = some v) :
    ∃ s : Setting, category = s.category ∧ name = s.name ∧ v = s.write (s.get c) := by
  have hc := Ordered.mem_of_get? hc
  have hn := Ordered.mem_of_get? hn
  simp only [Settings.toJson, CompileSettings.toJson, Json.fields?, Option.getD_some, List.mem_cons,
    List.not_mem_nil, or_false, Prod.mk.injEq, Json.obj.injEq] at hc
  obtain ⟨rfl, rfl⟩ | ⟨rfl, rfl⟩ | ⟨rfl, rfl⟩ := hc
  case inl =>
    simp only [List.mem_cons, List.not_mem_nil, or_false, Prod.mk.injEq] at hn
    obtain ⟨rfl, rfl⟩ | ⟨rfl, rfl⟩ | ⟨rfl, rfl⟩ | ⟨rfl, rfl⟩ := hn
    case inl         => exact ⟨prog, rfl, rfl, rfl⟩
    case inr.inl     => exact ⟨stem, rfl, rfl, rfl⟩
    case inr.inr.inl => exact ⟨addHelp, rfl, rfl, rfl⟩
    case inr.inr.inr => exact ⟨addVersion, rfl, rfl, rfl⟩
  case inr.inl =>
    obtain ⟨rfl, rfl⟩ := Prod.mk.inj (List.mem_singleton.mp hn)
    exact ⟨hookTimeout, rfl, rfl, rfl⟩
  case inr.inr =>
    obtain ⟨rfl, rfl⟩ := Prod.mk.inj (List.mem_singleton.mp hn)
    exact ⟨format, rfl, rfl, rfl⟩

theorem eq_of_read?_write {x y : s.Value} (h : s.read? (s.write y) = some x) : y = x := by
  cases s
  case stem | hookTimeout =>
    simp only [read?, write, Json.text?, Json.float?, Option.filter_eq_some_iff] at h
    exact Option.some.inj h.1
  case prog | format => exact Option.some.inj ((Json.rawText?_raw y).symm.trans h)
  all_goals exact Option.some.inj h

-- A text gives a value of the type that the setting has.
theorem exists_of_coerce {x : s.Value} (h : Settings.coerce key (s.write x) value = .ok w) :
    ∃ y, w = s.write y := by
  cases s
  case hookTimeout =>
    rw [write, Settings.coerce_float_eq] at h
    cases hy : Decimal.readFloat? value.toList with
    | none   => rw [hy] at h; cases h
    | some y =>
      rw [hy] at h
      exact ⟨y, (Except.ok.inj h).symm⟩
  case prog | format =>
    rw [write, Settings.coerce_raw_eq] at h
    exact ⟨.unicode value, (Except.ok.inj h).symm⟩
  all_goals exact ⟨_, (Except.ok.inj h).symm⟩

end Setting

namespace Settings

variable {c d : Settings} {w : Json} {key value : String}

theorem intercalate_pathOf (key : String) : ".".intercalate (pathOf key) = key := by
  rw [← String.toList_inj, String.toList_intercalate, pathOf, List.map_map]
  simp [Function.comp_def, List.intercalate_splitOn]

theorem exists_obj_of_get?_toJson {n : String} {v : Json}
    (h : Ordered.get? (c.toJson.fields?.getD []) n = some v) : ∃ inner, v = .obj inner := by
  have h := Ordered.mem_of_get? h
  simp only [toJson, CompileSettings.toJson, Json.fields?, Option.getD_some, List.mem_cons,
    List.not_mem_nil, or_false, Prod.mk.injEq] at h
  obtain ⟨_, rfl⟩ | ⟨_, rfl⟩ | ⟨_, rfl⟩ := h <;> exact ⟨_, rfl⟩

-- A path that leads to a value goes through one section.
theorem exists_of_editAt {f : Json → Except EditError Json} {ps : List String} {fs : Ordered Json}
    (h : editAt key f ps (c.toJson.fields?.getD []) = .ok (fs, w)) :
    ∃ s : Setting, ps = [s.category, s.name] ∧ f (s.write (s.get c)) = .ok w ∧
      (s.override w).apply (c.toJson.fields?.getD []) = .ok fs := by
  unfold editAt at h
  split at h
  case h_1 => cases h
  case h_2 =>
    split at h
    case h_1 | h_2 => cases h
    case h_3 hobj hget =>
      obtain ⟨inner, rfl⟩ := exists_obj_of_get?_toJson hget
      cases hobj inner rfl
  case h_3 category ps _ =>
    split at h
    case h_2 => cases h
    case h_1 entries hget =>
      have ⟨⟨inner, w'⟩, hinner, h⟩ := bind_eq_ok_iff.mp h
      cases h
      unfold editAt at hinner
      split at hinner
      case h_1 => cases hinner
      case h_2 name =>
        split at hinner
        case h_1 | h_2 => cases hinner
        case h_3 hv =>
          have ⟨w', hw, hinner⟩ := bind_eq_ok_iff.mp hinner
          cases hinner
          obtain ⟨s, rfl, rfl, rfl⟩ := Setting.exists_of_get?_toJson hget hv
          exact ⟨s, rfl, hw, Override.apply_eq_ok_iff.mpr ⟨_, hget, rfl⟩⟩
      case h_3 =>
        split at hinner
        case h_2 => cases hinner
        case h_1 hv =>
          obtain ⟨s, _, _, hs⟩ := Setting.exists_of_get?_toJson hget hv
          cases Setting.write_ne_obj _ _ hs.symm

-- A change gives a new value to one setting, and keeps the others.
theorem exists_of_edit (h : c.Valid) (he : c.edit key value = .ok (d, w)) : ∃ s : Setting,
    key = s.path ∧ coerce key (s.write (s.get c)) value = .ok (s.write (s.get d)) ∧
      ∀ s' ≠ s, s'.get d = s'.get c := by
  have ⟨⟨fs, w'⟩, hedit, he⟩ := bind_eq_ok_iff.mp he
  dsimp only at he
  split at he
  case h_2 => cases he
  case h_1 hcheck =>
    cases he
    obtain ⟨s, hpath, hcoerce, happly⟩ := exists_of_editAt hedit
    obtain ⟨y, rfl⟩ := Setting.exists_of_coerce hcoerce
    have ⟨_, happly', hself, hother⟩ :=
      Setting.exists_apply (v := s.write y) (Setting.hasSection_toJson (c := c) s)
    cases happly.symm.trans happly'
    have hroom (s' : Setting) : HasRoom fs s'.category :=
      .inr ((Override.hasSection_apply_iff happly).mpr (Setting.hasSection_toJson s'))
    have hread := (Setting.check_eq_ok_iff hroom).mp hcheck
    refine ⟨s, ?_, ?_, fun s' hne => ?_⟩
    case refine_1 => rw [← intercalate_pathOf key, hpath, Setting.path]
    case refine_2 =>
      have hs := hread s
      rw [hself] at hs
      rw [hcoerce, Setting.eq_of_read?_write hs]
    case refine_3 =>
      have hs := hread s'
      rw [hother s' hne, Setting.inRecord_toJson] at hs
      exact Option.some.inj (hs.symm.trans (h.read?_write s'))

theorem hookTimeout_of_edit (h : c.Valid) (he : c.edit key value = .ok (d, w)) :
    d.hookTimeout = c.hookTimeout ∨ Decimal.readFloat? value.toList = some d.hookTimeout := by
  obtain ⟨s, -, hs, hother⟩ := exists_of_edit h he
  by_cases hh : Setting.hookTimeout = s
  case neg => exact .inl (hother .hookTimeout hh)
  case pos =>
    subst hh
    rw [Setting.write, coerce_float_eq] at hs
    cases hx : Decimal.readFloat? value.toList with
    | none   => rw [hx] at hs; cases hs
    | some x =>
      rw [hx] at hs
      cases hs
      exact .inr rfl

theorem valid_of_edit (he : c.edit key value = .ok (d, w)) : d.Valid := by
  have ⟨⟨fs, w'⟩, _, he⟩ := bind_eq_ok_iff.mp he
  dsimp only at he
  split at he
  case h_1 hcheck =>
    cases he
    exact ⟨_, hcheck⟩
  case h_2 => cases he

end Settings

end ShellArgs
