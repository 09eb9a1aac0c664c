import ShellArgs.Json.Overlay
import ShellArgs.Json.Reader

-- No object that is read has two fields of one name. So a field of a record is a field of the object
-- that was laid over another or, where that has none, of the one below.

namespace ShellArgs

namespace Ordered

variable {α : Type} {t : Ordered α} {n : String} {v : α}

theorem nodup_put (h : t.names.Nodup) : (t.put n v).names.Nodup := by
  rw [names_put]
  split
  · exact h
  · next hn => simpa [List.nodup_append, h] using fun m hm => ne_of_mem_of_not_mem hm hn

theorem eq_or_mem_of_mem_put {e : String × α} (h : e ∈ t.put n v) : e = (n, v) ∨ e ∈ t := by
  induction t with
  | nil => exact .inl (by simpa [put] using h)
  | cons f t hi =>
    obtain ⟨k, w⟩ := f
    by_cases hk : k = n
    · rw [put, if_pos hk] at h
      exact (List.mem_cons.mp h).imp_right (List.mem_cons_of_mem _)
    · rw [put, if_neg hk] at h
      cases List.mem_cons.mp h
      case inl he => exact .inr (he ▸ List.mem_cons_self)
      case inr ht => exact (hi ht).imp_right (List.mem_cons_of_mem _)

theorem get?_eq_none (h : n ∉ t.names) : t.get? n = none := by
  refine List.lookup_eq_none_iff.mpr fun e he => ?_
  have hne : n ≠ e.1 := fun hn => h (hn ▸ List.mem_map_of_mem he)
  simpa using hne

@[simp] theorem get?_cons_self : get? ((n, v) :: t) n = some v := by
  simp [get?]

theorem get?_cons_of_ne {m : String} (h : m ≠ n) : get? ((n, v) :: t) m = t.get? m := by
  have hb : (m == n) = false := by simpa using h
  simp [get?, List.lookup_cons, hb]

end Ordered

namespace Json

-- No object has two fields of one name, at any depth.
inductive Distinct : Json → Prop where
  | null                 : Distinct .null
  | bool {b : Bool}      : Distinct (.bool b)
  | int {n : Int}        : Distinct (.int n)
  | float {x : Binary64} : Distinct (.float x)
  | str {s : String}     : Distinct (.str s)
  | unpaired {t : Unpaired} : Distinct (.unpaired t)
  | arr {vs : List Json} (items : ∀ v ∈ vs, Distinct v) : Distinct (.arr vs)
  | obj {fs : Ordered Json} (names : fs.names.Nodup) (values : ∀ f ∈ fs, Distinct f.2) :
    Distinct (.obj fs)

namespace Distinct

variable {fs : Ordered Json} {v : Json}

theorem names_nodup (h : Distinct (.obj fs)) : fs.names.Nodup := by
  cases h with
  | obj names _ => exact names

theorem empty : Distinct (.obj []) :=
  .obj List.nodup_nil (by simp)

theorem value {name : String} (h : Distinct (.obj fs)) (hv : fs.get? name = some v) : v.Distinct := by
  cases h with
  | obj names values => exact values _ ((Ordered.get?_eq_some_iff names).mp hv)

theorem put (h : Distinct (.obj fs)) (name : String) (hv : v.Distinct) :
    Distinct (.obj (fs.put name v)) := by
  cases h with
  | obj names values =>
    refine .obj (Ordered.nodup_put names) fun f hf => ?_
    cases Ordered.eq_or_mem_of_mem_put hf
    case inl he => exact he ▸ hv
    case inr hm => exact values f hm

end Distinct

theorem distinct_ofPoints {ps : List CodePoint} : (ofPoints ps).Distinct := by
  unfold ofPoints
  split
  case isTrue  => exact .unpaired
  case isFalse => exact .str

theorem distinct_of_number? {negative : Bool} {s r : List Char} {v : Json}
    (h : number? negative s = some (v, r)) : v.Distinct := by
  unfold number? at h
  extract_lets finish at h
  have hfinish {w} (h : (some w >>= finish) = some (v, r)) : v.Distinct := by
    rw [Option.bind_eq_bind, Option.bind_some] at h
    dsimp only [finish] at h
    split at h
    case h_1 =>
      split at h
      · cases h
      · cases h
        exact .int
    case h_2 =>
      cases h
      exact .float
  split at h
  case h_1 => exact hfinish h
  case h_2 =>
    split at h
    · cases h
    · exact hfinish h

-- What is read with `n` steps of fuel, for each of the three readers.
structure ReadsDistinct (n : Nat) : Prop where
  value {s r : List Char} {v : Json} : value? n s = some (v, r) → v.Distinct
  elements {s r : List Char} {read : List Json} {v : Json} :
    (∀ w ∈ read, Distinct w) → elements? n s read = some (v, r) → v.Distinct
  members {s r : List Char} {read : Ordered Json} {v : Json} :
    Distinct (.obj read) → members? n s read = some (v, r) → v.Distinct

namespace ReadsDistinct

variable {n : Nat} {s r : List Char} {v : Json}

theorem value_succ (d : ReadsDistinct n) (h : value? (n + 1) s = some (v, r)) : v.Distinct := by
  unfold value? at h
  split at h
  -- A string, an object, an array, and the two signs of a number. The rest are fixed words.
  case h_1 =>
    have ⟨_, _, h⟩ := Option.bind_eq_some_iff.mp h
    cases h
    exact distinct_ofPoints
  case h_2 =>
    split at h
    · cases h
      exact .empty
    · exact d.members .empty h
  case h_3 =>
    split at h
    · cases h
      exact .arr (by simp)
    · exact d.elements (by simp) h
  case h_10 => exact distinct_of_number? h
  case h_11 => exact distinct_of_number? h
  all_goals
    cases h
    constructor

theorem elements_succ {read : List Json} (d : ReadsDistinct n) (hr : ∀ w ∈ read, Distinct w)
    (h : elements? (n + 1) s read = some (v, r)) : v.Distinct := by
  unfold elements? at h
  have ⟨⟨_, _⟩, hw, h⟩ := Option.bind_eq_some_iff.mp h
  have hread := List.forall_mem_cons.mpr ⟨d.value hw, hr⟩
  dsimp only at h
  split at h
  · exact d.elements hread h
  · cases h
    exact .arr fun u hu => hread u (List.mem_reverse.mp hu)
  · cases h

theorem members_succ {read : Ordered Json} (d : ReadsDistinct n) (hr : Distinct (.obj read))
    (h : members? (n + 1) s read = some (v, r)) : v.Distinct := by
  unfold members? at h
  split at h
  case h_2 => cases h
  case h_1 =>
    have ⟨⟨_, _⟩, _, h⟩ := Option.bind_eq_some_iff.mp h
    dsimp only at h
    split at h
    case h_2 => cases h
    case h_1 =>
      have ⟨⟨_, _⟩, hw, h⟩ := Option.bind_eq_some_iff.mp h
      have hread (name : String) := hr.put name (d.value hw)
      dsimp only at h
      split at h
      · exact d.members (hread _) h
      · cases h
        exact hread _
      · cases h

theorem all (n : Nat) : ReadsDistinct n := by
  induction n with
  | zero      => constructor <;> simp [value?, elements?, members?]
  | succ n hi => exact ⟨hi.value_succ, hi.elements_succ, hi.members_succ⟩

end ReadsDistinct

theorem distinct_of_parse? {text : String} {v : Json} (h : parse? text = some v) : v.Distinct := by
  unfold parse? at h
  dsimp only at h
  split at h
  case h_2 => cases h
  case h_1 hv =>
    split at h
    · cases h
      exact (ReadsDistinct.all _).value hv
    · cases h

section Overlay

variable {base fs : Ordered Json} {below : Option Json} {v : Json}

theorem overlayValue_of_leaf (h : ∀ base, below ≠ some (.obj base)) :
    overlayValue below v = v := by
  cases v with
  | obj fs => rw [overlayValue]; exact h
  | _      => rw [overlayValue]; simp

theorem isObject_overlayValue_iff :
    (∃ fs, overlayValue below v = .obj fs) ↔ ∃ fs, v = .obj fs := by
  by_cases h : ∃ base, below = some (.obj base)
  case neg => rw [overlayValue_of_leaf fun base hb => h ⟨base, hb⟩]
  case pos =>
    obtain ⟨base, rfl⟩ := h
    cases v with
    | obj fs => simp [overlayValue]
    | _      => rw [overlayValue]; simp

theorem get?_overlay {name : String} (h : fs.names.Nodup) : (overlay base fs).get? name =
    ((fs.get? name).map (overlayValue (base.get? name)) <|> base.get? name) := by
  induction fs generalizing base with
  | nil => simp [Ordered.get?]
  | cons f fs hi =>
    obtain ⟨n, v⟩ := f
    obtain ⟨hn, hfs⟩ := List.nodup_cons.mp h
    rw [overlay, hi hfs]
    by_cases he : name = n
    · subst he
      simp [Ordered.get?_eq_none hn]
    · simp [Ordered.get?_put_of_ne he, Ordered.get?_cons_of_ne he]

end Overlay

end Json

end ShellArgs
