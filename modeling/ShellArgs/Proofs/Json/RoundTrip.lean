import ShellArgs.Proofs.Json.Distinct
import ShellArgs.Proofs.Json.Halves
import ShellArgs.Proofs.Json.Numbers

namespace ShellArgs.Json

-- The values that settings are stored as. What can be read of an object has no two fields of one
-- name.
inductive Readable : Json → Prop
  | bool (b : Bool) : Readable (.bool b)
  | float (h : Rereads x) : Readable (.float x)
  | raw (t : RawText) : Readable (.raw t)
  | obj {fs : Ordered Json} (names : fs.names.Nodup) (values : ∀ f ∈ fs, Readable f.2) :
      Readable (.obj fs)

-- A text that is read as a value, wherever it stands.
structure ReadsAs (text : List Char) (v : Json) : Prop where
  head  : ∀ rest, skip (text ++ rest) = text ++ rest
  value : ∀ n rest, Delimited rest → (text ++ rest).length < n →
    value? n (text ++ rest) = some (v, rest)

section Blank

variable {blank s : List Char} {sp : Spacing}

theorem isSpace_of_mem_newline (sp : Spacing) : ∀ c ∈ sp.newline.toList, isSpace c := by
  cases sp
  case compact => exact List.forall_mem_nil _
  case indented n =>
    intro c hc
    simp only [Spacing.newline, String.toList_append, String.toList_ofList, List.mem_append,
      List.mem_replicate] at hc
    obtain hc | ⟨_, rfl⟩ := hc
    case inl => simpa using List.mem_singleton.mp hc ▸ rfl
    case inr => rfl

theorem skip_append (h : ∀ c ∈ blank, isSpace c) (s : List Char) : skip (blank ++ s) = skip s := by
  induction blank
  case nil => rfl
  case cons c blank hi =>
    have ⟨hc, hblank⟩ := List.forall_mem_cons.mp h
    exact (List.dropWhile_cons_of_pos hc).trans (hi hblank)

theorem delimited_append (h : ∀ c ∈ blank, isSpace c) (hs : Delimited s) :
    Delimited (blank ++ s) := by
  cases blank
  case nil       => exact hs
  case cons c cs => exact fun d hd => .inr (.inr (Option.some.inj hd ▸ h c List.mem_cons_self))

end Blank

section Members

variable {cs : Charset} {sp : Spacing} {name : String} {v : Json} {fs read : Ordered Json}
variable {blank rest tail : List Char} {n : Nat}

theorem quoted_append (cs : Charset) (t : RawText) (rest : List Char) :
    (quoted cs t).toList ++ rest = '"' :: (t.points.flatMap (escapePoint cs) ++ '"' :: rest) := by
  simp [quoted]

theorem text_raw (cs : Charset) (sp : Spacing) (t : RawText) : text cs sp (.raw t) = quoted cs t := by
  cases t with
  | unicode s  => rw [raw, text]
  | unpaired t => rw [raw, text]

theorem readsAs_raw (cs : Charset) (sp : Spacing) (t : RawText) :
    ReadsAs (text cs sp (.raw t)).toList (.raw t) := by
  rw [text_raw]
  constructor
  case head => exact fun rest => by rw [quoted_append]; rfl
  case value =>
    intro n rest _ hn
    obtain ⟨n, rfl⟩ := Nat.exists_eq_add_of_le' (Nat.one_le_of_lt hn)
    rw [quoted_append, value?]
    simp [stringBody_flatMap cs (hasPair_points t), ofPoints_points]

-- A member of an object. What comes behind it tells whether there are more.
theorem members?_field (hv : ReadsAs (text cs sp v).toList v) (ht : Delimited tail)
    (hn : ((quoted cs name ++ ": " ++ text cs sp v).toList ++ tail).length < n + 1) :
    members? (n + 1) ((quoted cs name ++ ": " ++ text cs sp v).toList ++ tail) read =
      match skip tail with
      | ',' :: s    => members? n (skip s) (read.put name v)
      | '\x7d' :: s => some (.obj (read.put name v), s)
      | _           => none := by
  have hsplit : (quoted cs name ++ ": " ++ text cs sp v).toList ++ tail =
      (quoted cs name).toList ++ (':' :: ' ' :: ((text cs sp v).toList ++ tail)) := by
    simp
  have hlt : ((text cs sp v).toList ++ tail).length < n := by
    rw [hsplit, List.length_append, List.length_cons, List.length_cons] at hn
    omega
  have hcolon : skip (':' :: ' ' :: ((text cs sp v).toList ++ tail)) = 
      ':' :: ' ' :: ((text cs sp v).toList ++ tail) := rfl
  have hspace : skip (' ' :: ((text cs sp v).toList ++ tail)) = (text cs sp v).toList ++ tail :=
    hv.head tail
  rw [hsplit, quoted_append, members?]
  simp only [stringBody_flatMap cs (hasPair_points name) _ (Nat.lt_succ_self _), Option.bind_eq_bind,
    Option.bind_some, hcolon, hspace, hv.value n tail ht hlt, nameOfPoints_unicode]
  rfl

-- The texts of the members of an object, which are more than one or the last.
def joinedFields (cs : Charset) (sp : Spacing) (fs : Ordered Json) : List Char :=
  (("," ++ sp.newline).intercalate (fieldTexts cs sp fs)).toList

theorem joinedFields_single : joinedFields cs sp [(name, v)] =
    (quoted cs name ++ ": " ++ text cs sp v).toList := by
  simp [joinedFields, fieldTexts]

theorem joinedFields_cons {f : String × Json} : joinedFields cs sp ((name, v) :: f :: fs) =
    (quoted cs name ++ ": " ++ text cs sp v).toList ++
      ',' :: (sp.newline.toList ++ joinedFields cs sp (f :: fs)) := by
  simp [joinedFields, fieldTexts, String.intercalate_cons_cons]

-- The first name begins with a quote.
theorem exists_joinedFields (hfs : fs ≠ []) (rest : List Char) :
    ∃ s, joinedFields cs sp fs ++ rest = '"' :: s := by
  obtain ⟨⟨name, v⟩, fs, rfl⟩ := List.exists_cons_of_ne_nil hfs
  cases fs
  case nil =>
    rw [joinedFields_single, String.append_assoc, String.toList_append, List.append_assoc,
      quoted_append]
    exact ⟨_, rfl⟩
  case cons =>
    rw [joinedFields_cons, String.append_assoc, String.toList_append, List.append_assoc,
      List.append_assoc, quoted_append]
    exact ⟨_, rfl⟩

theorem skip_joinedFields (hfs : fs ≠ []) :
    skip (joinedFields cs sp fs ++ rest) = joinedFields cs sp fs ++ rest := by
  have ⟨_, hs⟩ : ∃ s, joinedFields cs sp fs ++ rest = '"' :: s := exists_joinedFields hfs rest
  rw [hs]
  rfl

theorem members?_joinedFields (hfs : fs ≠ [])
    (h : ∀ f ∈ fs, ReadsAs (text cs sp f.2).toList f.2)
    (hnames : (Ordered.names (read ++ fs)).Nodup)
    (hb : ∀ c ∈ blank, isSpace c)
    (hn : (joinedFields cs sp fs ++ (blank ++ '\x7d' :: rest)).length < n) :
    members? n (joinedFields cs sp fs ++ (blank ++ '\x7d' :: rest)) read =
      some (.obj (read ++ fs), rest) := by
  induction fs generalizing read n
  case nil => cases hfs rfl
  case cons f fs hi =>
    obtain ⟨name, v⟩ := f
    have ⟨hv, hvs⟩ := List.forall_mem_cons.mp h
    obtain ⟨n, rfl⟩ := Nat.exists_eq_add_of_le' (Nat.one_le_of_lt hn)
    have hname : name ∉ read.names := by
      intro hm
      simp only [Ordered.names, List.map_append, List.map_cons, List.nodup_append] at hnames
      exact hnames.2.2 _ hm _ List.mem_cons_self rfl
    have hput : read.put name v = read ++ [(name, v)] := Ordered.put_of_not_mem hname
    cases fs
    case nil =>
      have ht : Delimited (blank ++ '\x7d' :: rest) :=
        delimited_append hb fun c hc => .inr (.inl (Option.some.inj hc).symm)
      have hskip : skip (blank ++ '\x7d' :: rest) = '\x7d' :: rest := skip_append hb _
      rw [joinedFields_single] at hn ⊢
      rw [members?_field hv ht hn, hskip, hput]
      rfl
    case cons f fs =>
      rw [joinedFields_cons, List.append_assoc, List.cons_append, List.append_assoc] at hn ⊢
      have ht : Delimited (',' :: (sp.newline.toList ++
          (joinedFields cs sp (f :: fs) ++ (blank ++ '\x7d' :: rest)))) :=
        fun c hc => .inl (Option.some.inj hc).symm
      have hcomma (s : List Char) : skip (',' :: s) = ',' :: s := rfl
      have hlt : (joinedFields cs sp (f :: fs) ++ (blank ++ '\x7d' :: rest)).length < n := by
        rw [List.length_append, List.length_cons, List.length_append] at hn
        omega
      rw [members?_field hv ht hn, hcomma]
      change members? n (skip (sp.newline.toList ++ _)) _ = _
      rw [skip_append (isSpace_of_mem_newline sp), skip_joinedFields (List.cons_ne_nil f fs), hput,
        hi (List.cons_ne_nil f fs) hvs (by simpa using hnames) hlt, List.append_assoc]
      rfl

end Members

theorem enclosed_cons (sp : Spacing) (opening closing s : String) (ss : List String) :
    enclosed sp opening closing (s :: ss) = opening ++ sp.deeper.newline ++
      ("," ++ sp.deeper.newline).intercalate (s :: ss) ++ sp.newline ++ closing :=
  rfl

theorem readsAs_float {x : Binary64} (h : Rereads x) :
    ReadsAs (floatText x).toList (.float x) := by
  constructor
  case head =>
    intro rest
    have hne : (floatText x).toList ≠ [] := by
      intro hnil
      have he : floatText x = "" := String.toList_eq_nil_iff.mp hnil
      have h : parse? (floatText x) = some (.float x) := h
      rw [he] at h
      cases h
    obtain ⟨c, s, hc⟩ := List.exists_cons_of_ne_nil hne
    have hspace := isSpace_eq_false (ofNumber_floatText x c (hc ▸ List.mem_cons_self))
    rw [hc]
    exact List.dropWhile_cons_of_neg (by simp [hspace])
  case value =>
    intro n rest hr hn
    obtain ⟨n, rfl⟩ := Nat.exists_eq_add_of_le' (Nat.one_le_of_lt hn)
    exact h.value? hr n

theorem Readable.readsAs {v : Json} (h : Readable v) (cs : Charset) (sp : Spacing) :
    ReadsAs (text cs sp v).toList v := by
  induction h generalizing sp
  case raw t     => exact readsAs_raw cs sp t
  case float _ h => exact readsAs_float h
  case bool b =>
    constructor
    case head =>
      rw [text]
      cases b <;> exact fun _ => rfl
    case value =>
      intro n rest _ hn
      obtain ⟨n, rfl⟩ := Nat.exists_eq_add_of_le' (Nat.one_le_of_lt hn)
      rw [text]
      cases b <;> rfl
  case obj fs names _ hi =>
    cases fs
    case nil =>
      have htext : text cs sp (.obj []) = "\x7b\x7d" := by rw [text, fieldTexts]; rfl
      rw [htext]
      constructor
      case head => exact fun _ => rfl
      case value =>
        intro n rest _ hn
        obtain ⟨n, rfl⟩ := Nat.exists_eq_add_of_le' (Nat.one_le_of_lt hn)
        rfl
    case cons f fs _ =>
      have htext (rest : List Char) : (text cs sp (.obj (f :: fs))).toList ++ rest =
          '\x7b' :: (sp.deeper.newline.toList ++
            (joinedFields cs sp.deeper (f :: fs) ++ (sp.newline.toList ++ '\x7d' :: rest))) := by
        simp [text, fieldTexts, enclosed_cons, joinedFields]
      constructor
      case head =>
        intro rest
        rw [htext rest]
        rfl
      case value =>
        intro n rest _ hn
        obtain ⟨n, rfl⟩ := Nat.exists_eq_add_of_le' (Nat.one_le_of_lt hn)
        rw [htext rest] at hn ⊢
        rw [List.length_cons, List.length_append] at hn
        have hmembers : members? n (joinedFields cs sp.deeper (f :: fs) ++
            (sp.newline.toList ++ '\x7d' :: rest)) [] = some (.obj (f :: fs), rest) :=
          members?_joinedFields (List.cons_ne_nil f fs) (fun g hg => hi g hg sp.deeper) names
            (isSpace_of_mem_newline sp) (by omega)
        have ⟨s, hs⟩ : ∃ s, joinedFields cs sp.deeper (f :: fs) ++
            (sp.newline.toList ++ '\x7d' :: rest) = '"' :: s :=
          exists_joinedFields (List.cons_ne_nil f fs) _
        rw [value?, skip_append (isSpace_of_mem_newline _),
          skip_joinedFields (List.cons_ne_nil f fs)]
        rw [hs] at hmembers ⊢
        exact hmembers

-- What a value is written as is read as the value, whatever the indentation.
theorem Readable.parse?_indented {v : Json} (h : Readable v) (cs : Charset) :
    parse? (v.indented cs ++ "\n") = some v := by
  have hr := h.readsAs cs (.indented 0)
  have hend : Delimited "\n".toList := fun c hc => .inr (.inr (Option.some.inj hc ▸ rfl))
  unfold parse?
  rw [String.toList_append, indented, hr.head]
  dsimp only
  rw [hr.value _ _ hend (Nat.lt_succ_self _)]
  rfl

end ShellArgs.Json
