import ShellArgs.Proofs.Json.Distinct

-- Objects as their leaves, which are found by the names on the way to them. The leaves of an overlay
-- are those of the object on top, and those below that it leaves room for.

namespace ShellArgs

namespace Ordered

variable {α : Type} {t : Ordered α} {n : String} {v : α}

theorem put_eq_self (h : t.get? n = some v) : t.put n v = t := by
  induction t with
  | nil => cases h
  | cons e t hi =>
    obtain ⟨k, w⟩ := e
    by_cases hk : k = n
    case pos =>
      subst hk
      rw [get?_cons_self] at h
      cases h
      simp [put]
    case neg =>
      rw [get?_cons_of_ne (Ne.symm hk)] at h
      simp [put, hk, hi h]

end Ordered

namespace Json

-- The value at the end of a path of names.
def at? : Json → List String → Option Json
  | v,       []        => some v
  | .obj fs, n :: path => (Ordered.get? fs n).bind (at? · path)
  | _,       _ :: _    => none

-- The value at the end of a path, if it is no object.
def leaf? (v : Json) (path : List String) : Option Json :=
  match v.at? path with
  | some (.obj _) => none
  | w             => w

-- There is nothing at the path, and no leaf on the way to it.
structure Vacant (v : Json) (path : List String) : Prop where
  absent : v.at? path = none
  way    : ∀ way, way <+: path → way ≠ path → v.leaf? way = none

variable {base fs : Ordered Json} {below : Option Json} {v w : Json} {path : List String} {n : String}

theorem overlayValue_of_not_object (h : ∀ fs, v ≠ .obj fs) : overlayValue below v = v := by
  cases v with
  | obj fs => exact absurd rfl (h fs)
  | _      => rw [overlayValue]; simp

section Leaves

@[simp] theorem at?_nil : v.at? [] = some v := by
  cases v <;> rfl

theorem at?_cons : (obj fs).at? (n :: path) = (fs.get? n).bind (at? · path) :=
  rfl

theorem at?_cons_of_leaf (h : ∀ fs, v ≠ .obj fs) : v.at? (n :: path) = none := by
  cases v with
  | obj fs => exact absurd rfl (h fs)
  | _      => rfl

theorem leaf?_nil_obj : (obj fs).leaf? [] = none :=
  rfl

theorem leaf?_nil_of_leaf (h : ∀ fs, v ≠ .obj fs) : v.leaf? [] = some v := by
  cases v with
  | obj fs => exact absurd rfl (h fs)
  | _      => rfl

theorem leaf?_cons : (obj fs).leaf? (n :: path) = (fs.get? n).bind (leaf? · path) := by
  rw [leaf?, at?_cons]
  cases fs.get? n <;> rfl

theorem leaf?_cons_of_leaf (h : ∀ fs, v ≠ .obj fs) : v.leaf? (n :: path) = none := by
  rw [leaf?, at?_cons_of_leaf h]

theorem not_vacant_nil : ¬ v.Vacant [] := by
  intro h
  cases at?_nil.symm.trans h.absent

-- A leaf has no room behind it.
theorem not_vacant_of_leaf (h : ∀ fs, v ≠ .obj fs) : ¬ v.Vacant path := by
  intro hr
  cases path with
  | nil         => exact not_vacant_nil hr
  | cons n path =>
    cases (leaf?_nil_of_leaf h).symm.trans (hr.way [] List.nil_prefix (by simp))

theorem vacant_of_get?_eq_none (h : fs.get? n = none) : (obj fs).Vacant (n :: path) where
  absent := by rw [at?_cons, h]; rfl
  way    := by
    intro way hw _
    cases way with
    | nil        => rfl
    | cons m way =>
      obtain ⟨rfl, _⟩ := List.cons_prefix_cons.mp hw
      rw [leaf?_cons, h]
      rfl

theorem vacant_cons_iff (h : fs.get? n = some v) :
    (obj fs).Vacant (n :: path) ↔ v.Vacant path := by
  constructor
  case mp =>
    intro hr
    refine ⟨?absent, fun way hw hne => ?way⟩
    case absent => simpa [at?_cons, h] using hr.absent
    case way =>
      have := hr.way (n :: way) (List.cons_prefix_cons.mpr ⟨rfl, hw⟩) (by simpa using hne)
      simpa [leaf?_cons, h] using this
  case mpr =>
    intro hr
    refine ⟨?absent, fun way hw hne => ?way⟩
    case absent => simpa [at?_cons, h] using hr.absent
    case way =>
      cases way with
      | nil        => rfl
      | cons m way =>
        obtain ⟨rfl, hway⟩ := List.cons_prefix_cons.mp hw
        simpa [leaf?_cons, h] using hr.way way hway (by simpa using hne)

-- The induction is on the path: the objects that meet at its first name are overlaid in turn.
theorem leaf?_overlayValue (hd : v.Distinct) (below : Json) :
    (overlayValue (some below) v).leaf? path = some w ↔
      v.leaf? path = some w ∨ below.leaf? path = some w ∧ v.Vacant path := by
  induction path generalizing below v with
  | nil =>
    simp only [not_vacant_nil, and_false, or_false]
    cases v with
    | obj fs => cases below <;> simp [overlayValue, leaf?_nil_obj]
    | _      => rw [overlayValue]; simp
  | cons n path hi =>
    by_cases hv : ∃ fs, v = .obj fs
    case neg =>
      have hleaf : ∀ fs, v ≠ .obj fs := fun fs he => hv ⟨fs, he⟩
      simp [overlayValue_of_not_object hleaf, not_vacant_of_leaf hleaf]
    case pos =>
      obtain ⟨fs, rfl⟩ := hv
      by_cases hb : ∃ base, below = .obj base
      case neg =>
        have hleaf : ∀ base, below ≠ .obj base := fun base he => hb ⟨base, he⟩
        have hsame : overlayValue (some below) (obj fs) = obj fs :=
          overlayValue_of_leaf fun base he => hleaf base (Option.some.inj he)
        simp [hsame, leaf?_cons_of_leaf hleaf]
      case pos =>
        obtain ⟨base, rfl⟩ := hb
        rw [overlayValue]
        simp only [leaf?_cons, get?_overlay hd.names_nodup]
        cases hf : Ordered.get? fs n with
        | none   => simp [vacant_of_get?_eq_none hf]
        | some u =>
          cases hg : Ordered.get? base n with
          | none   =>
            have hsame : overlayValue none u = u := overlayValue_of_leaf (by simp)
            simp [hsame]
          | some b => simpa [vacant_cons_iff hf] using hi (hd.value hf) b

theorem leaf?_overlay (hd : Distinct (.obj fs)) :
    (obj (overlay base fs)).leaf? path = some w ↔
      (obj fs).leaf? path = some w ∨ (obj base).leaf? path = some w ∧ (obj fs).Vacant path := by
  rw [← leaf?_overlayValue hd (.obj base), overlayValue]

end Leaves

section Fields

theorem names_overlay (h : fs.names.Nodup) :
    Ordered.names (overlay base fs) = base.names ++ fs.names.filter (· ∉ base.names) := by
  induction fs generalizing base with
  | nil => simp [Ordered.names]
  | cons f fs hi =>
    obtain ⟨n, v⟩ := f
    obtain ⟨hn, hfs⟩ := List.nodup_cons.mp h
    have hcons : Ordered.names ((n, v) :: fs) = n :: Ordered.names fs := rfl
    rw [overlay, hi hfs, Ordered.names_put, hcons]
    split
    case isTrue hm  => simp [hm]
    case isFalse hm =>
      -- No field that comes later has the name again.
      have hlater : (Ordered.names fs).filter (· ∉ base.names ++ [n]) =
          (Ordered.names fs).filter (· ∉ base.names) := by
        refine List.filter_congr fun m hmem => ?_
        have hne : m ≠ n := ne_of_mem_of_not_mem hmem hn
        simp [hne]
      rw [hlater]
      simp [hm]

-- Fields with new names come behind the others.
theorem overlay_eq_append (h : fs.names.Nodup) (hn : ∀ n ∈ fs.names, n ∉ base.names) :
    overlay base fs = base ++ fs := by
  induction fs generalizing base with
  | nil => simp
  | cons f fs hi =>
    obtain ⟨n, v⟩ := f
    obtain ⟨hm, hfs⟩ := List.nodup_cons.mp h
    have ⟨hb, hrest⟩ := List.forall_mem_cons.mp hn
    have hsame : overlayValue (base.get? n) v = v := by
      rw [Ordered.get?_eq_none hb]
      exact overlayValue_of_leaf (by simp)
    rw [overlay, hsame, Ordered.put_of_not_mem hb, hi hfs, List.append_assoc, List.singleton_append]
    intro m hmem
    have hne : m ≠ n := ne_of_mem_of_not_mem hmem hm
    simpa [Ordered.names, hne] using hrest m hmem

theorem overlay_empty_left (h : fs.names.Nodup) : overlay [] fs = fs :=
  overlay_eq_append h (by simp [Ordered.names])

-- What an object has already changes nothing.
theorem overlay_eq_self
    (h : ∀ f ∈ fs, base.get? f.1 = some f.2 ∧ overlayValue (some f.2) f.2 = f.2) :
    overlay base fs = base := by
  induction fs with
  | nil => simp
  | cons f fs hi =>
    obtain ⟨⟨hget, hsame⟩, hrest⟩ := List.forall_mem_cons.mp h
    rw [overlay, hget, hsame, Ordered.put_eq_self hget, hi hrest]

theorem overlayValue_self (hd : v.Distinct) : overlayValue (some v) v = v := by
  induction hd with
  | obj names _ hi =>
    rw [overlayValue, overlay_eq_self fun f hf =>
      ⟨(Ordered.get?_eq_some_iff names).mpr hf, hi f hf⟩]
  | _ => rw [overlayValue]; simp

theorem overlay_self (hd : Distinct (.obj base)) : overlay base base = base := by
  simpa [overlayValue] using overlayValue_self hd

theorem Distinct.overlayValue (hv : v.Distinct) (hb : ∀ w ∈ below, Distinct w) :
    (overlayValue below v).Distinct := by
  induction hv generalizing below with
  | @obj fs names values hi =>
    by_cases h : ∃ base, below = some (.obj base)
    case neg =>
      rw [overlayValue_of_leaf fun base he => h ⟨base, he⟩]
      exact .obj names values
    case pos =>
      obtain ⟨base, rfl⟩ := h
      have hbase := hb _ rfl
      rw [Json.overlayValue]
      clear hb names values
      induction fs generalizing base with
      | nil => simpa using hbase
      | cons f fs hrest =>
        obtain ⟨hf, hfs⟩ := List.forall_mem_cons.mp hi
        rw [Json.overlay]
        exact hrest hfs _ (hbase.put _ (hf fun w hw => hbase.value hw))
  | _ =>
    rw [overlayValue_of_not_object (by simp)]
    constructor <;> assumption

theorem Distinct.overlay (hf : Distinct (.obj fs)) (hb : Distinct (.obj base)) :
    Distinct (.obj (overlay base fs)) := by
  have hbase : ∀ w ∈ some (Json.obj base), Distinct w := by simpa using hb
  have := hf.overlayValue hbase
  rwa [Json.overlayValue] at this

end Fields

-- An object that is laid over another adds its leaves, hides the leaves that are in its way, and
-- leaves all others and the order of fields alone. That is an object again.
theorem overlay_leafwise (hb : Distinct (.obj base)) (hf : Distinct (.obj fs)) :
    Distinct (.obj (overlay base fs)) ∧
    (∀ path v, (obj (overlay base fs)).leaf? path = some v ↔
      (obj fs).leaf? path = some v ∨ (obj base).leaf? path = some v ∧ (obj fs).Vacant path) ∧
    Ordered.names (overlay base fs) = base.names ++ fs.names.filter (· ∉ base.names) ∧
    overlay base [] = base ∧ overlay [] base = base ∧ overlay base base = base :=
  ⟨hf.overlay hb, fun _ _ => leaf?_overlay hf, names_overlay hf.names_nodup, overlay_nil,
    overlay_empty_left hb.names_nodup, overlay_self hb⟩

-- Of a section that both objects have, a field is replaced and another one is kept. A section takes
-- the place of a field.
theorem overlay_leafwise_section :
    Distinct (.obj [("compile", .obj [("prefix", .str "a"), ("add_help", .bool true)]),
      ("output", .str "plain")]) ∧
    Distinct (.obj [("output", .obj []), ("compile", .obj [("prefix", .str "b")])]) ∧
    (∀ v, (obj (overlay
      [("compile", .obj [("prefix", .str "a"), ("add_help", .bool true)]), ("output", .str "plain")]
      [("output", .obj []), ("compile", .obj [("prefix", .str "b")])])).leaf?
        ["compile", "add_help"] = some v ↔ v = .bool true) := by
  have hb : Distinct (.obj [("compile", .obj [("prefix", .str "a"), ("add_help", .bool true)]),
      ("output", .str "plain")]) :=
    .obj (by decide) (List.forall_mem_cons.mpr ⟨.obj (by decide) (List.forall_mem_cons.mpr
      ⟨.str, List.forall_mem_singleton.mpr .bool⟩), List.forall_mem_singleton.mpr .str⟩)
  have hf : Distinct (.obj [("output", .obj []), ("compile", .obj [("prefix", .str "b")])]) :=
    .obj (by decide) (List.forall_mem_cons.mpr ⟨.empty, List.forall_mem_singleton.mpr
      (.obj (by decide) (List.forall_mem_singleton.mpr .str))⟩)
  refine ⟨hb, hf, fun v => ?_⟩
  have hvacant : (obj [("output", .obj []), ("compile", .obj [("prefix", .str "b")])]).Vacant
      ["compile", "add_help"] :=
    (vacant_cons_iff rfl).mpr (vacant_of_get?_eq_none rfl)
  rw [(overlay_leafwise hb hf).2.1]
  simp only [hvacant, and_true]
  constructor
  case mp =>
    rintro (h | h)
    case inl => cases h
    case inr => exact (Option.some.inj h).symm
  case mpr =>
    rintro rfl
    exact .inr rfl

end Json

end ShellArgs
