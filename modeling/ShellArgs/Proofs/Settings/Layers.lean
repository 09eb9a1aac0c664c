import ShellArgs.Proofs.Settings.Overrides

-- What comes of all layers of settings. Each setting has the value of the highest layer that has one
-- for it, and these values have to be valid. A section of a project that is no object is reported
-- unless a layer above has to write into it.

namespace ShellArgs

open Outcome

namespace Settings

open Setting

-- Everything that settings are taken from.
structure Layers where
  user : Source
  project : Source
  vars : Ordered RawText := []
  stem : Option RawText := none
  noHelp : Bool := false
  format : Option RawText := none

def Source.fields (source : Source) : Ordered Json :=
  (source.json?.bind Json.fields?).getD []

-- Whether an error is reported to the user. A write into a section that is no object is not: the
-- program stops there without a word on the settings.
def LayerError.IsReported : LayerError → Prop
  | .noSection _ => False
  | _            => True

namespace Layers

def resolve (l : Layers) : Except LayerError Settings :=
  Settings.resolve l.user l.project (ofEnvironment l.vars ++ ofFlags l.stem l.noHelp l.format)

def onCommandLine (l : Layers) : Setting → Option Json
  | .stem    => l.stem.map .raw
  | .addHelp => if l.noHelp then some (.bool false) else none
  | .format  => l.format.map .raw
  | _        => none

def inEnvironment (l : Layers) : Setting → Option Json
  | .stem        => (setVar? l.vars "ARGSH_PREFIX").map .raw
  | .addHelp     => (setVar? l.vars "ARGSH_NO_HELP").map fun t => .bool !t.unicode?.any isTrueWord
  | .hookTimeout => (setVar? l.vars "ARGSH_HOOK_TIMEOUT").map .raw
  | _            => none

-- The value of the highest layer that has one for a setting.
def highest (l : Layers) (s : Setting) : Option Json :=
  l.onCommandLine s <|> l.inEnvironment s <|> s.inRecord l.project.fields <|>
    s.inRecord l.user.fields

-- The settings whose highest value is not valid.
def invalid (l : Layers) : List Setting :=
  all.filter fun s => (s.reading (l.highest s)).isNone

variable {l : Layers} {us c : Settings} {fs : Ordered Json}

theorem ofEnvironment_eq : ofEnvironment l.vars = overrides l.inEnvironment all := by
  simp only [ofEnvironment, overrides, all, inEnvironment, List.filterMap_cons, Option.map_none]
  cases setVar? l.vars "ARGSH_PREFIX" <;> cases setVar? l.vars "ARGSH_NO_HELP" <;>
    cases setVar? l.vars "ARGSH_HOOK_TIMEOUT" <;> rfl

theorem ofFlags_eq : ofFlags l.stem l.noHelp l.format = overrides l.onCommandLine all := by
  simp only [ofFlags, overrides, all, onCommandLine, List.filterMap_cons, Option.map_none]
  cases l.stem <;> cases l.noHelp <;> cases l.format <;> rfl

theorem exists_merged {base : Ordered Json} (hd : Json.Distinct (.obj fs))
    (hs : ∀ s : Setting, HasRoom fs s.category) (hb : ∀ s : Setting, HasSection base s.category)
    (hleaf : ∀ (s : Setting) w, s.inRecord base ≠ some (.obj w)) :
    ∃ merged, (ofEnvironment l.vars ++ ofFlags l.stem l.noHelp l.format).foldlM Override.apply
        (Json.overlay base fs) = .ok merged ∧
      (∀ s : Setting, HasSection merged s.category) ∧
      ∀ s : Setting, s.inRecord merged =
        (l.onCommandLine s <|> l.inEnvironment s <|> s.inRecord fs <|> s.inRecord base) := by
  have hover (s : Setting) := (hasSection_overlay_iff hd.names_nodup (hb s)).mpr (hs s)
  have ⟨fs₁, henv, hsections₁, hrecord₁⟩ :=
    exists_foldlM_overrides (f := l.inEnvironment) nodup_all hover
  have ⟨fs₂, hflags, hsections₂, hrecord₂⟩ :=
    exists_foldlM_overrides (f := l.onCommandLine) nodup_all hsections₁
  refine ⟨fs₂, ?_, hsections₂, fun s => ?_⟩
  · rw [List.foldlM_append, ofEnvironment_eq, ofFlags_eq, henv]
    exact hflags
  · rw [hrecord₂, hrecord₁, inRecord_overlay hd (hs s) (hb s) (hleaf s)]
    simp [mem_all]

theorem reading_user (h : ofUser l.user = .ok us) (s : Setting) :
    s.reading (s.inRecord l.user.fields) = some (s.get us) := by
  unfold ofUser at h
  split at h
  case isTrue ha =>
    cases h
    rw [ha]
    rfl
  case isFalse =>
    split at h
    case h_1 => cases h
    case h_2 v hv =>
      split at h
      case h_2 => cases h
      case h_1 hc =>
        cases h
        have hc := Checked.toExcept_eq_ok_iff.mp hc
        obtain ⟨fs, rfl, hs⟩ := hasRoom_of_accepts hc
        have hfs : l.user.fields = fs := by simp [Source.fields, hv, Json.fields?]
        exact hfs ▸ (accepts_check_iff hs).mp hc s

theorem distinct_of_json? {source : Source} {v : Json} (h : source.json? = some v) : v.Distinct := by
  cases source with
  | text t => exact Json.distinct_of_parse? h
  | _      => cases h

theorem fields_project (h : ofProject l.project = .ok fs) :
    l.project.fields = fs ∧ Json.Distinct (.obj fs) := by
  unfold ofProject at h
  split at h
  case isTrue ha =>
    cases h
    rw [ha]
    exact ⟨rfl, .empty⟩
  case isFalse =>
    split at h
    case h_2 hv =>
      cases h
      exact ⟨by simp [Source.fields, hv, Json.fields?], distinct_of_json? hv⟩
    all_goals cases h

theorem ofProject_eq_ok {source : Source} (h : (source.json?.bind Json.fields?).isSome) :
    ofProject source = .ok source.fields := by
  have ⟨fs, hfs⟩ := Option.isSome_iff_exists.mp h
  have ⟨v, hv, hobj⟩ := Option.bind_eq_some_iff.mp hfs
  have hv := Json.fields?_eq_some_iff.mp hobj ▸ hv
  cases source with
  | text t => simp [ofProject, Source.fields, hv, Json.fields?]
  | _      => cases hv

-- The settings of a user are written out and read again, which changes no value.
theorem reading_highest (h : ofUser l.user = .ok us) (s : Setting) : s.reading (l.highest s) =
    s.reading (l.onCommandLine s <|> l.inEnvironment s <|> s.inRecord l.project.fields <|>
      s.inRecord (us.toJson.fields?.getD [])) := by
  have huser := reading_user h s
  have hstored : s.reading (some (s.write (s.get us))) = some (s.get us) :=
    read?_write_of_reading huser
  rw [highest, inRecord_toJson]
  cases l.onCommandLine s with
  | some v => rfl
  | none =>
    cases l.inEnvironment s with
    | some v => rfl
    | none =>
      cases s.inRecord l.project.fields with
      | some v => rfl
      | none   => exact huser.trans hstored.symm

theorem resolve_eq (hu : ofUser l.user = .ok us) (hp : ofProject l.project = .ok fs) : l.resolve =
    (ofEnvironment l.vars ++ ofFlags l.stem l.noHelp l.format).foldlM Override.apply
        (Json.overlay (us.toJson.fields?.getD []) fs) >>= fun merged =>
      (check (.obj merged)).toExcept.mapError .badSettings := by
  rw [resolve, Settings.resolve, hu, hp, ok_bind, ok_bind]
  refine congrArg (_ >>= ·) (funext fun merged => ?_)
  cases (check (.obj merged)).toExcept <;> rfl

theorem exists_checked (hu : ofUser l.user = .ok us) (hp : ofProject l.project = .ok fs)
    (hs : ∀ s : Setting, HasRoom fs s.category) :
    ∃ merged, (∀ s : Setting, HasRoom merged s.category) ∧
      (∀ s : Setting, s.reading (s.inRecord merged) = s.reading (l.highest s)) ∧
      l.resolve = (check (.obj merged)).toExcept.mapError .badSettings := by
  obtain ⟨hproject, hd⟩ := fields_project hp
  have hleaf (s : Setting) (w : Ordered Json) :
      s.inRecord (us.toJson.fields?.getD []) ≠ some (.obj w) := by
    rw [inRecord_toJson]
    exact fun h => write_ne_obj _ w (Option.some.inj h)
  obtain ⟨merged, hm, hsections, hrecord⟩ := exists_merged (l := l) hd hs hasSection_toJson hleaf
  refine ⟨merged, fun s => .inr (hsections s), fun s => ?_, ?_⟩
  · rw [hrecord, reading_highest hu, hproject]
  · rw [resolve_eq hu hp, hm, ok_bind]

-- Each setting has the value of the highest layer that has one for it. If one of them is not valid,
-- then all that are not are named.
theorem resolve_highest (hu : ofUser l.user = .ok us) (hp : ofProject l.project = .ok fs)
    (hs : ∀ s : Setting, HasRoom fs s.category) :
    (∀ c, l.resolve = .ok c ↔ ∀ s : Setting, s.reading (l.highest s) = some (s.get c)) ∧
    ∀ e, l.resolve = .error e ↔
      (∃ s : Setting, s.reading (l.highest s) = none) ∧ e = .badSettings (l.invalid.map path) := by
  have ⟨merged, hroom, hreading, hresolve⟩ := exists_checked hu hp hs
  have hok (c : Settings) := check_eq_ok_iff (c := c) hroom
  have herror := check_eq_error_iff hroom
  simp only [hreading] at hok herror
  rw [hresolve]
  refine ⟨fun c => ?_, fun e => ?_⟩
  · rw [← hok c]
    cases (check (.obj merged)).toExcept <;> simp [Except.mapError]
  · rw [invalid]
    cases hc : (check (.obj merged)).toExcept with
    | ok c =>
      have hno : ¬∃ s : Setting, s.reading (l.highest s) = none := fun ⟨s, hn⟩ =>
        nomatch hn ▸ (hok c).mp hc s
      simp [Except.mapError, hno]
    | error paths =>
      have ⟨hex, hpaths⟩ := (herror paths).mp hc
      simp [Except.mapError, hex, hpaths, eq_comm]

-- Each layer has the last word on some setting. The values that the environment and the project have
-- for the stem are not valid, which does no harm below the command line.
def fiveLayers : Layers where
  user    := .text "\x7b\"compile\": \x7b\"prog\": \"a\"\x7d, \"completion\": \x7b\"hook_timeout\": 3\x7d\x7d"
  project := .text "\x7b\"compile\": \x7b\"prog\": \"b\", \"prefix\": null\x7d, \"author\": 1\x7d"
  vars    := [("ARGSH_PREFIX", "no name"), ("ARGSH_NO_HELP", "Yes")]
  stem    := some "opt"

theorem resolve_highest_five : fiveLayers.resolve =
    .ok { compile := { prog := "b", stem := "opt", addHelp := false }, hookTimeout := .ofInt 3 } := by
  have hu : ofUser fiveLayers.user =
      .ok { compile := { prog := "a" }, hookTimeout := .ofInt 3 } := by decide +kernel
  have hp : ofProject fiveLayers.project = .ok fiveLayers.project.fields :=
    ofProject_eq_ok (by decide +kernel)
  have hs : ∀ s : Setting, HasRoom fiveLayers.project.fields s.category := by decide +kernel
  exact ((resolve_highest hu hp hs).1 _).mpr (by decide +kernel)

-- Half a surrogate pair is a name for a program, but none for variables.
example : resolve {
    user    := .text "\x7b\"compile\": \x7b\"prog\": \"\\ud800\"\x7d\x7d"
    project := .absent } =
    .ok { compile := { prog := .unpaired ⟨[.half 0], by decide, by decide⟩ } } := by
  decide +kernel

example : resolve {
    user    := .absent
    project := .text "\x7b\"compile\": \x7b\"prefix\": \"\\ud800\"\x7d\x7d" } =
    .error (.badSettings ["compile.prefix"]) := by
  decide +kernel

theorem isReported_of_ofUser {e : LayerError} (h : ofUser l.user = .error e) : e.IsReported := by
  unfold ofUser at h
  split at h
  case isTrue  => cases h
  case isFalse =>
    split at h
    case h_1 => cases h; trivial
    case h_2 =>
      split at h
      case h_1 => cases h
      case h_2 => cases h; trivial

theorem isReported_of_ofProject {e : LayerError} (h : ofProject l.project = .error e) :
    e.IsReported := by
  unfold ofProject at h
  split at h
  case isTrue  => cases h
  case isFalse =>
    split at h
    case h_2 => cases h
    all_goals
      cases h
      trivial

-- The layers above the files can be written into what comes of the files.
theorem exists_merged_iff (us : Settings) (hp : ofProject l.project = .ok fs) :
    (∃ merged, (ofEnvironment l.vars ++ ofFlags l.stem l.noHelp l.format).foldlM Override.apply
        (Json.overlay (us.toJson.fields?.getD []) fs) = .ok merged) ↔
      ∀ s : Setting, (l.onCommandLine s).isSome ∨ (l.inEnvironment s).isSome →
        HasRoom fs s.category := by
  have ⟨_, hd⟩ := fields_project hp
  have hroom (s : Setting) := hasSection_overlay_iff hd.names_nodup (hasSection_toJson (c := us) s)
  rw [exists_foldlM_apply_iff, List.forall_mem_append, ofEnvironment_eq, ofFlags_eq,
    forall_mem_overrides, forall_mem_overrides]
  simp only [hroom]
  exact ⟨fun ⟨henv, hflags⟩ s hs => hs.elim (hflags s) (henv s),
    fun h => ⟨fun s hs => h s (.inr hs), fun s hs => h s (.inl hs)⟩⟩

-- Whatever goes wrong is reported if and only if no layer above has to write into a section of the
-- project that is something else than an object.
theorem resolve_reports :
    (∀ e, l.resolve = .error e → e.IsReported) ↔
      ∀ us fs, ofUser l.user = .ok us → ofProject l.project = .ok fs →
        ∀ s : Setting, (l.onCommandLine s).isSome ∨ (l.inEnvironment s).isSome →
          HasRoom fs s.category := by
  constructor
  · intro h us fs hu hp
    rw [← exists_merged_iff us hp]
    have hresolve := resolve_eq hu hp
    cases hm : (ofEnvironment l.vars ++ ofFlags l.stem l.noHelp l.format).foldlM Override.apply
        (Json.overlay (us.toJson.fields?.getD []) fs) with
    | ok merged => exact ⟨merged, rfl⟩
    | error e =>
      have ⟨o, _, fs', ho⟩ := exists_of_foldlM_eq_error hm
      have ⟨_, he⟩ := Override.apply_eq_error_iff.mp ho
      rw [hm] at hresolve
      exact absurd (h e hresolve) (by simp [he, LayerError.IsReported])
  · intro h e he
    cases hu : ofUser l.user with
    | error e' =>
      rw [resolve, Settings.resolve, hu] at he
      cases he
      exact isReported_of_ofUser hu
    | ok us =>
      cases hp : ofProject l.project with
      | error e' =>
        rw [resolve, Settings.resolve, hu, hp] at he
        cases he
        exact isReported_of_ofProject hp
      | ok fs =>
        have ⟨merged, hm⟩ := (exists_merged_iff us hp).mpr (h us fs hu hp)
        rw [resolve_eq hu hp, hm, ok_bind] at he
        cases hc : (check (.obj merged)).toExcept with
        | ok c        => simp [hc, Except.mapError] at he
        | error paths =>
          rw [hc] at he
          cases he
          trivial

-- A variable gives a setting of a section for which the project has a number.
example : resolve {
    user    := .absent
    project := .text "\x7b\"compile\": 5\x7d"
    vars    := [("ARGSH_PREFIX", "x")] } = .error (.noSection "compile") := by
  decide +kernel

end Layers

end Settings

end ShellArgs
