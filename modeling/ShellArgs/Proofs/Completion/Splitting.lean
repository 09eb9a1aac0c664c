import ShellArgs.Proofs.Completion.Blocks
import ShellArgs.Proofs.Forms

namespace ShellArgs.Completion

open Text

-- A word in the parts that the shell makes of it. Each `=` is a part of its own.
def splitEquals (w : String) : List String :=
  ((w.toList.splitOn '=').map String.ofList).intersperse "="

-- A word with an `=` is an option, and no part of it is empty.
def Splittable (w : String) : Prop :=
  '=' ∈ w.toList → startsWith w "-" ∧ "" ∉ splitEquals w

instance {w : String} : Decidable (Splittable w) :=
  inferInstanceAs (Decidable (_ → _))

-- The parts of a splittable word: the word itself, an option and its value, or even more.
inductive Parts : String → List String → Prop
  | whole (h : '=' ∉ w.toList) : Parts w [w]
  | value (ha : opensBlock a) (hb : '=' ∉ b.toList) : Parts (a ++ "=" ++ b) [a, "=", b]
  | values (ha : opensBlock a) (hb : '=' ∉ b.toList) :
      Parts (a ++ "=" ++ (b ++ "=" ++ c)) (a :: "=" :: b :: "=" :: splitEquals c)

section Parts

variable {w a b : String}

theorem splitEquals_of_not_mem (h : '=' ∉ w.toList) : splitEquals w = [w] := by
  have hsplit : w.toList.splitOn '=' = [w.toList] :=
    List.splitOnP_eq_singleton fun c hc => by simpa using ne_of_mem_of_not_mem hc h
  simp [splitEquals, hsplit]

theorem splitEquals_ne_nil (w : String) : splitEquals w ≠ [] := by
  obtain ⟨c, cs, hc⟩ := List.exists_cons_of_ne_nil (List.splitOnP_ne_nil (· == '=') w.toList)
  cases cs <;> simp [splitEquals, List.splitOn, hc]

-- The first `=` of a word comes after the first part.
theorem splitEquals_append (h : '=' ∉ a.toList) :
    splitEquals (a ++ "=" ++ b) = a :: "=" :: splitEquals b := by
  have hsplit : (a ++ "=" ++ b).toList.splitOn '=' = a.toList :: b.toList.splitOn '=' := by
    rw [String.toList_append, String.toList_append, List.append_assoc]
    exact List.splitOnP_append_cons_of_forall_mem
      (fun c hc => by simpa using ne_of_mem_of_not_mem hc h) '=' (by decide) _
  obtain ⟨c, cs, hc⟩ := List.exists_cons_of_ne_nil (List.splitOnP_ne_nil (· == '=') b.toList)
  rw [← List.splitOn] at hc
  simp only [splitEquals, hsplit, hc, List.map_cons, String.ofList_toList,
    List.intersperse_cons_cons]

theorem exists_append_equals (h : '=' ∈ w.toList) :
    ∃ a b, '=' ∉ a.toList ∧ w = a ++ "=" ++ b := by
  obtain ⟨s, t, hst, hs⟩ := List.eq_append_cons_of_mem h
  refine ⟨.ofList s, .ofList t, by simpa using hs, ?_⟩
  rw [← String.toList_inj]
  simp [hst]

-- A part that is not empty begins as the whole word does.
theorem opensBlock_of_startsWith (ha : '=' ∉ a.toList) (hne : a ≠ "")
    (h : startsWith (a ++ "=" ++ b) "-") : opensBlock a := by
  obtain ⟨c, cs, hc⟩ := List.exists_cons_of_ne_nil (mt String.toList_eq_nil_iff.mp hne)
  have hdash : startsWith a "-" := by
    rw [startsWith_iff] at h ⊢
    simpa [hc] using h
  simp [opensBlock, hdash, ha]

theorem Splittable.parts (h : Splittable w) : Parts w (splitEquals w) := by
  by_cases hw : '=' ∈ w.toList
  case neg => exact splitEquals_of_not_mem hw ▸ .whole hw
  case pos =>
    have ⟨hdash, hempty⟩ := h hw
    obtain ⟨a, b, ha, rfl⟩ := exists_append_equals hw
    rw [splitEquals_append ha] at hempty ⊢
    have hopens : opensBlock a :=
      opensBlock_of_startsWith ha (Ne.symm (List.ne_of_not_mem_cons hempty)) hdash
    by_cases hb : '=' ∈ b.toList
    case neg => exact splitEquals_of_not_mem hb ▸ .value hopens hb
    case pos =>
      obtain ⟨b, c, hb', rfl⟩ := exists_append_equals hb
      exact splitEquals_append hb' ▸ .values hopens hb'

-- A word does not begin with an `=` that belongs to the word before it.
theorem Parts.head?_ne {ps : List String} (h : Parts w ps) (us : List String) :
    (ps ++ us).head? ≠ some "=" := by
  cases h
  case whole hw    => simpa using ne_equals hw
  case value ha _  => simpa using ne_equals (not_mem_of_opensBlock ha)
  case values ha _ => simpa using ne_equals (not_mem_of_opensBlock ha)

end Parts

section Blocks

variable {w : String} {ps us ws : List String}

theorem head?_flatMap_splitEquals (h : ∀ w ∈ ws, Splittable w) :
    (ws.flatMap splitEquals).head? ≠ some "=" := by
  cases ws
  case nil       => simp
  case cons w ws => exact (h w List.mem_cons_self).parts.head?_ne _

theorem one_lt_count (a b c : String) :
    1 < (a ++ "=" ++ (b ++ "=" ++ c)).toList.count '=' := by
  simp [List.count_append]
  omega

-- The parts of a word with one `=` at most are one block if the cursor is behind all words.
theorem Parts.blocks_append (h : Parts w ps) (hw : w.toList.count '=' ≤ 1)
    (hus : us.head? ≠ some "=") :
    blocks (ps ++ us).length (ps ++ us) = ps :: blocks us.length us := by
  cases h
  case whole =>
    cases us
    case nil       => rfl
    case cons e us =>
      have he : ¬ (opensBlock w ∧ e = "=") := by simpa using fun _ => hus
      have hlen : ((w :: e :: us).length : Int) = (e :: us).length + 1 := rfl
      rw [List.singleton_append, hlen, blocks_single he, Int.add_sub_cancel]
  case value a b ha hb =>
    have hlen : ((a :: "=" :: b :: us).length : Int) = us.length + 3 := rfl
    rw [List.cons_append, List.cons_append, List.singleton_append, hlen,
      blocks_value ha (by omega) (ne_equals hb), Int.add_sub_cancel]
  case values a b c _ _ => cases (one_lt_count a b c).not_ge hw

theorem blocks_flatMap_splitEquals (h : ∀ w ∈ ws, Splittable w)
    (hws : ∀ w ∈ ws, w.toList.count '=' ≤ 1) :
    blocks (ws.flatMap splitEquals).length (ws.flatMap splitEquals) = ws.map splitEquals := by
  induction ws
  case nil => rfl
  case cons w ws hi =>
    have ⟨hw, hs⟩ := List.forall_mem_cons.mp h
    have ⟨hone, hones⟩ := List.forall_mem_cons.mp hws
    rw [List.flatMap_cons, hw.parts.blocks_append hone (head?_flatMap_splitEquals hs), hi hs hones,
      List.map_cons]

theorem Parts.join_eq (h : Parts w ps) (hw : w.toList.count '=' ≤ 1) : String.join ps = w := by
  cases h
  case whole  => simp [String.join_cons]
  case value  => simp [String.join_cons, String.append_assoc]
  case values a b c _ _ => cases (one_lt_count a b c).not_ge hw

-- The second `=` of a word is a block of its own.
theorem Parts.mem_blocks_append (h : Parts w ps) (hw : 1 < w.toList.count '=') :
    ["="] ∈ blocks (ps ++ us).length (ps ++ us) := by
  cases h
  case whole hn =>
    rw [List.count_eq_zero.mpr hn] at hw
    omega
  case value a b ha hb =>
    have hcount : (a ++ "=" ++ b).toList.count '=' = 1 := by
      simp [List.count_append, List.count_eq_zero.mpr (not_mem_of_opensBlock ha),
        List.count_eq_zero.mpr hb]
    omega
  case values a b c ha hb =>
    obtain ⟨e, es, hc⟩ := List.exists_cons_of_ne_nil (splitEquals_ne_nil c)
    have hlen : ((a :: "=" :: b :: "=" :: (e :: es) ++ us).length : Int) =
        ("=" :: e :: (es ++ us)).length + 3 := rfl
    have hsingle : ¬ (opensBlock "=" ∧ e = "=") := by simp [opensBlock_equals]
    rw [hc, hlen]
    simp only [List.cons_append]
    rw [blocks_value ha (by omega) (ne_equals hb), blocks_single hsingle]
    simp

theorem mem_blocks_flatMap_splitEquals (h : ∀ w ∈ ws, Splittable w) (hw : w ∈ ws)
    (hc : 1 < w.toList.count '=') :
    ["="] ∈ blocks (ws.flatMap splitEquals).length (ws.flatMap splitEquals) := by
  induction ws
  case nil => cases hw
  case cons v ws hi =>
    have ⟨hv, hs⟩ := List.forall_mem_cons.mp h
    by_cases hone : v.toList.count '=' ≤ 1
    case neg => exact hv.parts.mem_blocks_append (by omega)
    case pos =>
      have hmem : w ∈ ws := (List.mem_cons.mp hw).resolve_left fun he => by
        subst he
        omega
      rw [List.flatMap_cons, hv.parts.blocks_append hone (head?_flatMap_splitEquals hs)]
      exact List.mem_cons_of_mem _ (hi hs hmem)

end Blocks

-- A cursor behind all words is behind all blocks.
theorem joinEquals_length (ws : List String) : joinEquals ws ws.length = {
    words := (blocks ws.length ws).map String.join
    cursor := (blocks ws.length ws).length
    split := false
  } := by
  have hlen : (blocks ws.length ws).flatten.length = ws.length := by rw [flatten_blocks]
  rw [joinEquals, if_neg (by omega), Int.toNat_natCast, locate_beyond hlen.le, hlen, Nat.sub_self,
    Nat.add_zero]

-- A line in which a word with an `=` is an option, and no part of such a word is empty, comes back
-- from the parts that the shell makes of it as long as no word has a second `=`, and only then.
theorem joinEquals_splitEquals (ws : List String) (h : ∀ w ∈ ws, Splittable w) :
    joinEquals (ws.flatMap splitEquals) (ws.flatMap splitEquals).length = ⟨ws, ws.length, false⟩ ↔
      ∀ w ∈ ws, w.toList.count '=' ≤ 1 := by
  rw [joinEquals_length]
  constructor
  case mp =>
    intro hj w hw
    by_contra hc
    have hmem := mem_blocks_flatMap_splitEquals h hw (by omega)
    have hwords := (Line.mk.inj hj).1
    have hequals : "=" ∈ ws := hwords ▸ List.mem_map_of_mem hmem
    cases (h "=" hequals (by decide)).1
  case mpr =>
    intro hc
    rw [blocks_flatMap_splitEquals h hc]
    have hwords : (ws.map splitEquals).map String.join = ws.map id := by
      rw [List.map_map]
      exact List.map_congr_left fun w hw => (h w hw).parts.join_eq (hc w hw)
    rw [hwords, List.map_id, List.length_map]

-- The value of an option comes back, but not one that has an `=` itself.
theorem joinEquals_splitEquals_value :
    joinEquals ["deploy", "--env", "=", "dev", "-v"] 5 =
        ⟨["deploy", "--env=dev", "-v"], 3, false⟩ ∧
      joinEquals ["--define", "=", "key", "=", "value"] 5 ≠ ⟨["--define=key=value"], 1, false⟩ := by
  have henv : ∀ w ∈ ["deploy", "--env=dev", "-v"], Splittable w := by decide +kernel
  have hdefine : ∀ w ∈ ["--define=key=value"], Splittable w := by decide +kernel
  exact ⟨(joinEquals_splitEquals _ henv).mpr (by decide +kernel),
    fun hj => absurd ((joinEquals_splitEquals _ hdefine).mp hj) (by decide +kernel)⟩

end ShellArgs.Completion
