import ShellArgs.Proofs.Json.Checked
import ShellArgs.Settings.Basic

namespace ShellArgs

namespace Settings

-- A section of a record is an object, or it may become one because it is left out.
def HasSection (fs : Ordered Json) (category : String) : Prop :=
  ∃ inner, fs.get? category = some (.obj inner)

def HasRoom (fs : Ordered Json) (category : String) : Prop :=
  fs.get? category = none ∨ HasSection fs category

instance {fs : Ordered Json} {category : String} : Decidable (HasRoom fs category) :=
  match h : fs.get? category with
  | none          => isTrue (.inl h)
  | some (.obj i) => isTrue (.inr ⟨i, h⟩)
  | some .null | some (.bool _) | some (.int _) | some (.float _) | some (.str _)
  | some (.unpaired _) | some (.arr _) => isFalse (by simp [HasRoom, HasSection, h])

end Settings

open Settings (HasSection HasRoom)

inductive Setting where
  | prog
  | stem
  | addHelp
  | addVersion
  | hookTimeout
  | format
deriving DecidableEq, Repr

namespace Setting

def all : List Setting :=
  [prog, stem, addHelp, addVersion, hookTimeout, format]

theorem mem_all (s : Setting) : s ∈ all := by
  cases s <;> decide

theorem nodup_all : all.Nodup := by
  decide

instance {P : Setting → Prop} [DecidablePred P] : Decidable (∀ s, P s) :=
  decidable_of_iff (∀ s ∈ all, P s) ⟨fun h s => h s (mem_all s), fun h s _ => h s⟩

-- The section that a setting is in, and its name there.
def category : Setting → String
  | prog | stem | addHelp | addVersion => "compile"
  | hookTimeout                        => "completion"
  | format                             => "output"

def name : Setting → String
  | prog        => "prog"
  | stem        => "prefix"
  | addHelp     => "add_help"
  | addVersion  => "add_version"
  | hookTimeout => "hook_timeout"
  | format      => "format"

def path (s : Setting) : String :=
  ".".intercalate [s.category, s.name]

abbrev Value : Setting → Type
  | prog | format        => RawText
  | stem                 => String
  | addHelp | addVersion => Bool
  | hookTimeout          => Binary64

instance : (s : Setting) → DecidableEq s.Value
  | prog | format        => inferInstanceAs (DecidableEq RawText)
  | stem                 => inferInstanceAs (DecidableEq String)
  | addHelp | addVersion => inferInstanceAs (DecidableEq Bool)
  | hookTimeout          => inferInstanceAs (DecidableEq Binary64)

def get : (s : Setting) → Settings → s.Value
  | prog,        c => c.compile.prog
  | stem,        c => c.compile.stem
  | addHelp,     c => c.compile.addHelp
  | addVersion,  c => c.compile.addVersion
  | hookTimeout, c => c.hookTimeout
  | format,      c => c.format

-- The value that JSON denotes for a setting, if it is a valid one.
def read? : (s : Setting) → Json → Option s.Value
  | prog,        v => v.rawText?
  | stem,        v => v.text?.filter fun w => Shell.isName w.toList
  | addHelp,     v => v.bool?
  | addVersion,  v => v.bool?
  | hookTimeout, v => v.float?.filter (·.isPositive)
  | format,      v => v.rawText?

def write : (s : Setting) → s.Value → Json
  | prog,        w => .raw w
  | stem,        w => .str w
  | addHelp,     b => .bool b
  | addVersion,  b => .bool b
  | hookTimeout, x => .float x
  | format,      w => .raw w

-- What is read where a value may be missing.
def reading (s : Setting) : Option Json → Option s.Value
  | some v => s.read? v
  | none   => some (s.get {})

-- The value that a record has for a setting.
def inRecord (s : Setting) (fs : Ordered Json) : Option Json :=
  (fs.get? s.category).bind (·.field? s.name)

variable {s : Setting} {fs : Ordered Json} {c : Settings}

theorem read?_write {v : Json} {x : s.Value} (h : s.read? v = some x) :
    s.read? (s.write x) = some x := by
  cases s with
  | stem        =>
    have hname : Shell.isName (String.toList x) := (Option.filter_eq_some_iff.mp h).2
    simpa [read?, write, Json.text?] using hname
  | hookTimeout => exact Option.filter_eq_some_iff.mpr ⟨rfl, (Option.filter_eq_some_iff.mp h).2⟩
  | prog        => exact Json.rawText?_raw x
  | format      => exact Json.rawText?_raw x
  | _           => rfl

-- No setting is a section.
theorem write_ne_obj (x : s.Value) (fs : Ordered Json) : s.write x ≠ .obj fs := by
  cases s with
  | prog   => cases x <;> exact Json.noConfusion
  | format => cases x <;> exact Json.noConfusion
  | _      => exact Json.noConfusion

theorem read?_default : s.read? (s.write (s.get {})) = some (s.get {}) := by
  cases s with
  | stem        => decide +kernel
  | hookTimeout => decide +kernel
  | _           => rfl

-- A valid value can be stored and read again.
theorem read?_write_of_reading {v : Option Json} {x : s.Value} (h : s.reading v = some x) :
    s.read? (s.write x) = some x := by
  cases v with
  | none   => exact Option.some.inj h ▸ read?_default
  | some v => exact read?_write h

theorem inRecord_toJson : s.inRecord (c.toJson.fields?.getD []) = some (s.write (s.get c)) := by
  cases s <;> rfl

-- The part of a record that is about one setting.
def checkIn (s : Setting) (fs : Ordered Json) : Checked s.Value :=
  ((Checked.ofOption (s.reading (s.inRecord fs))).within s.name).within s.category

theorem accepts_checkIn_iff {x : s.Value} :
    (s.checkIn fs).Accepts x ↔ s.reading (s.inRecord fs) = some x := by
  simp [checkIn]

theorem checkIn_absent (h : fs.get? s.category = none) : s.checkIn fs = .ok (s.get {}) := by
  simp [checkIn, inRecord, reading, h, Checked.ofOption]

theorem checkIn_section {inner : Ordered Json} (h : fs.get? s.category = some (.obj inner)) :
    s.checkIn fs =
      (Json.optional inner s.name (s.get {}) (.ofOption <| s.read? ·)).within s.category := by
  have hr : s.inRecord fs = inner.get? s.name := by simp [inRecord, h, Json.field?]
  rw [checkIn, hr, Json.optional]
  cases inner.get? s.name <;> rfl

theorem optional_compile (h : HasRoom fs prog.category) :
    Json.optional fs "compile" {} CompileSettings.check =
      CompileSettings.mk <$> prog.checkIn fs <*> stem.checkIn fs <*> addHelp.checkIn fs
        <*> addVersion.checkIn fs := by
  rw [Json.optional]
  obtain h | ⟨inner, h⟩ := h
  · rw [show fs.get? "compile" = none from h, checkIn_absent (s := prog) h,
      checkIn_absent (s := stem) h, checkIn_absent (s := addHelp) h,
      checkIn_absent (s := addVersion) h]
    rfl
  · rw [show fs.get? "compile" = some (.obj inner) from h, checkIn_section (s := prog) h,
      checkIn_section (s := stem) h, checkIn_section (s := addHelp) h,
      checkIn_section (s := addVersion) h]
    simp only [category, ← Checked.within_map, ← Checked.within_seq]
    rfl

theorem optional_section (h : HasRoom fs s.category) :
    Json.optional fs s.category (s.get {}) 
      (Settings.checkSection s.name (s.get {}) (.ofOption <| s.read? ·)) = s.checkIn fs := by
  rw [Json.optional]
  obtain h | ⟨inner, h⟩ := h
  · rw [h, checkIn_absent h]
    rfl
  · rw [h, checkIn_section h]
    rfl

theorem check_obj (h : ∀ s : Setting, HasRoom fs s.category) : Settings.check (.obj fs) =
    Settings.mk <$> (CompileSettings.mk <$> prog.checkIn fs <*> stem.checkIn fs <*> addHelp.checkIn fs
      <*> addVersion.checkIn fs) <*> hookTimeout.checkIn fs <*> format.checkIn fs := by
  rw [← optional_compile (h prog), ← optional_section (h hookTimeout),
    ← optional_section (h format)]
  rfl

theorem accepts_check_iff (h : ∀ s : Setting, HasRoom fs s.category) :
    (Settings.check (.obj fs)).Accepts c ↔
      ∀ s : Setting, s.reading (s.inRecord fs) = some (s.get c) := by
  rw [check_obj h]
  constructor
  · intro h
    obtain ⟨_, h₁, _, hformat, rfl⟩ := Checked.accepts_seq.mp h
    obtain ⟨_, h₂, _, htimeout, rfl⟩ := Checked.accepts_seq.mp h₁
    obtain ⟨_, h₃, rfl⟩ := Checked.accepts_map.mp h₂
    obtain ⟨_, h₄, _, hversion, rfl⟩ := Checked.accepts_seq.mp h₃
    obtain ⟨_, h₅, _, hhelp, rfl⟩ := Checked.accepts_seq.mp h₄
    obtain ⟨_, h₆, _, hstem, rfl⟩ := Checked.accepts_seq.mp h₅
    obtain ⟨_, hprog, rfl⟩ := Checked.accepts_map.mp h₆
    intro s
    cases s with
    | prog        => exact accepts_checkIn_iff.mp hprog
    | stem        => exact accepts_checkIn_iff.mp hstem
    | addHelp     => exact accepts_checkIn_iff.mp hhelp
    | addVersion  => exact accepts_checkIn_iff.mp hversion
    | hookTimeout => exact accepts_checkIn_iff.mp htimeout
    | format      => exact accepts_checkIn_iff.mp hformat
  · intro h
    have part (s : Setting) : (s.checkIn fs).Accepts (s.get c) := accepts_checkIn_iff.mpr (h s)
    have hcompile : (CompileSettings.mk <$> prog.checkIn fs <*> stem.checkIn fs <*> addHelp.checkIn fs
        <*> addVersion.checkIn fs).Accepts c.compile :=
      (((part prog).map.seq (part stem)).seq (part addHelp)).seq (part addVersion)
    exact (hcompile.map.seq (part hookTimeout)).seq (part format)

theorem failures_checkIn : (s.checkIn fs).failures =
    if (s.reading (s.inRecord fs)).isNone then [[s.category, s.name]] else [] := by
  rw [checkIn]
  cases s.reading (s.inRecord fs) <;> rfl

theorem flatMap_failures_checkIn {ss : List Setting} :
    (ss.flatMap fun s => (s.checkIn fs).failures) =
      (ss.filter fun s => (s.reading (s.inRecord fs)).isNone).map
        fun s => [s.category, s.name] := by
  induction ss with
  | nil => rfl
  | cons s ss hi =>
    rw [List.flatMap_cons, failures_checkIn, hi, List.filter_cons]
    split <;> rfl

theorem failures_check (h : ∀ s : Setting, HasRoom fs s.category) :
    (Settings.check (.obj fs)).failures =
      (all.filter fun s => (s.reading (s.inRecord fs)).isNone).map
        fun s => [s.category, s.name] := by
  rw [check_obj h, ← flatMap_failures_checkIn]
  simp [all]

theorem exists_settings (x : (s : Setting) → s.Value) :
    ∃ c : Settings, ∀ s : Setting, s.get c = x s :=
  ⟨⟨⟨x prog, x stem, x addHelp, x addVersion⟩, x hookTimeout, x format⟩,
    fun s => by cases s <;> rfl⟩

-- A record is valid if each of its settings is.
theorem check_eq_ok_iff (h : ∀ s : Setting, HasRoom fs s.category) :
    (Settings.check (.obj fs)).toExcept = .ok c ↔
      ∀ s : Setting, s.reading (s.inRecord fs) = some (s.get c) :=
  Checked.toExcept_eq_ok_iff.trans (accepts_check_iff h)

-- Otherwise the settings that are not valid are named.
theorem check_eq_error_iff (h : ∀ s : Setting, HasRoom fs s.category) (paths : List String) :
    (Settings.check (.obj fs)).toExcept = .error paths ↔
      (∃ s : Setting, s.reading (s.inRecord fs) = none) ∧
      paths = (all.filter fun s => (s.reading (s.inRecord fs)).isNone).map path := by
  by_cases hall : ∃ s : Setting, s.reading (s.inRecord fs) = none
  case pos =>
    have ⟨s, hs⟩ := hall
    have hno (c : Settings) : ¬(Settings.check (.obj fs)).Accepts c := fun hc =>
      nomatch hs ▸ (accepts_check_iff h).mp hc s
    rw [Checked.toExcept_eq_error hno, failures_check h, List.map_map]
    simp only [Except.error.injEq, hall, true_and]
    exact eq_comm
  case neg =>
    have hsome (s : Setting) : ∃ x, s.reading (s.inRecord fs) = some x :=
      Option.ne_none_iff_exists'.mp fun hn => hall ⟨s, hn⟩
    have ⟨c, hc⟩ := exists_settings fun s => (hsome s).choose
    have hok := (check_eq_ok_iff h).mpr fun s => (hc s).symm ▸ (hsome s).choose_spec
    simp [hok, hall]

theorem isObject_of_accepts_optional {α : Type} {key : String} {left a : α} {f : Json → Checked α}
    (hf : ∀ v : Json, v.fields? = none → f v = .refuse)
    (h : (Json.optional fs key left f).Accepts a) :
    HasRoom fs key := by
  have h := Checked.accepts_within.mp h
  split at h
  case h_2 hv => exact .inl hv
  case h_1 v hv =>
    cases hfs : v.fields? with
    | none       => exact absurd (hf v hfs ▸ h) Checked.not_accepts_refuse
    | some inner => exact .inr ⟨inner, Json.fields?_eq_some_iff.mp hfs ▸ hv⟩

-- In a valid record, each section is an object if it is there.
theorem hasRoom_of_accepts {v : Json} (h : (Settings.check v).Accepts c) :
    ∃ fs, v = .obj fs ∧ ∀ s : Setting, HasRoom fs s.category := by
  cases v with
  | obj fs =>
    have ⟨_, h, _, hformat, _⟩ := Checked.accepts_seq.mp h
    have ⟨_, h, _, htimeout, _⟩ := Checked.accepts_seq.mp h
    have ⟨_, hcompile, _⟩ := Checked.accepts_map.mp h
    refine ⟨fs, rfl, fun s => ?_⟩
    cases s with
    | hookTimeout =>
      exact isObject_of_accepts_optional (fun v hv => by rw [Settings.checkSection, hv]) htimeout
    | format      =>
      exact isObject_of_accepts_optional (fun v hv => by rw [Settings.checkSection, hv]) hformat
    | _           =>
      refine isObject_of_accepts_optional (fun v hv => ?_) hcompile
      rw [CompileSettings.check, checkOptions, hv]
  | _ => exact absurd h Checked.not_accepts_refuse

end Setting

end ShellArgs
