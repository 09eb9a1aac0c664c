import ShellArgs.Json.Typed

namespace ShellArgs

theorem Json.fields?_eq_some_iff {v : Json} {fs : Ordered Json} :
    v.fields? = some fs ↔ v = .obj fs := by
  cases v <;> simp [fields?]

@[simp] theorem Json.rawText?_raw (t : RawText) : (raw t).rawText? = some t := by
  cases t <;> rfl

namespace Checked

variable {α β : Type}

-- The value is read, and nothing is wrong.
structure Accepts (x : Checked α) (a : α) : Prop where
  value    : x.value? = some a
  failures : x.failures = []

@[simp] theorem accepts_ok {a b : α} : (ok a).Accepts b ↔ a = b :=
  ⟨fun h => Option.some.inj h.value, fun h => ⟨congrArg some h, rfl⟩⟩

@[simp] theorem not_accepts_refuse {a : α} : ¬(refuse : Checked α).Accepts a :=
  fun h => nomatch h.value

@[simp] theorem accepts_ofOption {o : Option α} {a : α} : (ofOption o).Accepts a ↔ o = some a := by
  cases o <;> simp [ofOption]

@[simp] theorem accepts_within {name : String} {x : Checked α} {a : α} :
    (x.within name).Accepts a ↔ x.Accepts a :=
  ⟨fun h => ⟨h.value, List.map_eq_nil_iff.mp h.failures⟩,
    fun h => ⟨h.value, List.map_eq_nil_iff.mpr h.failures⟩⟩

@[simp] theorem accepts_map {f : α → β} {x : Checked α} {b : β} :
    (f <$> x).Accepts b ↔ ∃ a, x.Accepts a ∧ f a = b := by
  constructor
  · intro ⟨hv, hf⟩
    have ⟨a, ha, hb⟩ := Option.map_eq_some_iff.mp hv
    exact ⟨a, ⟨ha, hf⟩, hb⟩
  · intro ⟨a, ha, hb⟩
    exact ⟨Option.map_eq_some_iff.mpr ⟨a, ha.value, hb⟩, ha.failures⟩

@[simp] theorem accepts_seq {x : Checked (α → β)} {y : Checked α} {b : β} :
    (x <*> y).Accepts b ↔ ∃ f, x.Accepts f ∧ ∃ a, y.Accepts a ∧ f a = b := by
  constructor
  · intro ⟨hv, hf⟩
    have ⟨f, hx, hv⟩ := Option.bind_eq_some_iff.mp hv
    have ⟨a, hy, hb⟩ := Option.map_eq_some_iff.mp hv
    have ⟨hfx, hfy⟩ := List.append_eq_nil_iff.mp hf
    exact ⟨f, ⟨hx, hfx⟩, a, ⟨hy, hfy⟩, hb⟩
  · intro ⟨f, hx, a, hy, hb⟩
    refine ⟨Option.bind_eq_some_iff.mpr ⟨f, hx.value, ?_⟩, ?_⟩
    · exact Option.map_eq_some_iff.mpr ⟨a, hy.value, hb⟩
    · exact List.append_eq_nil_iff.mpr ⟨hx.failures, hy.failures⟩

theorem Accepts.map {f : α → β} {x : Checked α} {a : α} (h : x.Accepts a) :
    (f <$> x).Accepts (f a) :=
  accepts_map.mpr ⟨a, h, rfl⟩

theorem Accepts.seq {x : Checked (α → β)} {y : Checked α} {f : α → β} {a : α} (hx : x.Accepts f)
    (hy : y.Accepts a) : (x <*> y).Accepts (f a) :=
  accepts_seq.mpr ⟨f, hx, a, hy, rfl⟩

@[simp] theorem failures_map {f : α → β} {x : Checked α} : (f <$> x).failures = x.failures :=
  rfl

@[simp] theorem failures_seq {x : Checked (α → β)} {y : Checked α} :
    (x <*> y).failures = x.failures ++ y.failures :=
  rfl

@[simp] theorem within_ok {name : String} {a : α} : (ok a).within name = ok a :=
  rfl

theorem within_map {name : String} {f : α → β} {x : Checked α} :
    (f <$> x).within name = f <$> x.within name :=
  rfl

theorem within_seq {name : String} {x : Checked (α → β)} {y : Checked α} :
    (x <*> y).within name = x.within name <*> y.within name :=
  congrArg (mk _) List.map_append

theorem toExcept_eq_ok_iff {x : Checked α} {a : α} : x.toExcept = .ok a ↔ x.Accepts a := by
  constructor
  · intro h
    unfold toExcept at h
    split at h
    case h_1 hv hf =>
      cases h
      exact ⟨hv, hf⟩
    case h_2 => cases h
  · intro ⟨hv, hf⟩
    simp [toExcept, hv, hf]

theorem toExcept_eq_error {x : Checked α} (h : ∀ a, ¬x.Accepts a) :
    x.toExcept = .error (x.failures.map (".".intercalate ·)) := by
  unfold toExcept
  split
  case h_1 a hv hf => exact absurd ⟨hv, hf⟩ (h a)
  case h_2 => rfl

end Checked

end ShellArgs
