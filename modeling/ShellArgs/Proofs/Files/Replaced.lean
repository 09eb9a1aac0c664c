import Mathlib
import ShellArgs.Proofs.Files.Kept

namespace ShellArgs

open Outcome

namespace Files

variable {fs gs : Files} {above : List String} {cwd : List String} {p : Path}

-- There are fewer files than there are numbers to name one by.
theorem exists_free {place : Nat → List String} (hp : ∀ n, place n ≠ [])
    (hi : place.Injective) : ∃ n < fs.entries.length + 1, fs.entry? (place n) = none := by
  by_contra hall
  push Not at hall
  have hsub : (List.range (fs.entries.length + 1)).map place ⊆ fs.entries.map (·.1) := by
    refine List.forall_mem_map.mpr fun n hn => ?_
    obtain ⟨e, he⟩ := Option.ne_none_iff_exists'.mp (hall n (List.mem_range.mp hn))
    unfold entry? at he
    rw [if_neg (by simpa using hp n)] at he
    have ⟨_, _, hes, _⟩ := List.lookup_eq_some_iff.mp he
    exact List.mem_map.mpr ⟨(place n, e), by simp [hes], rfl⟩
  have hle := (List.subperm_of_subset (List.nodup_range.map hi) hsub).length_le
  simp only [List.length_map, List.length_range] at hle
  omega

-- A directory that is there does not have to be made, nor what is above it.
theorem makeDirectory_eq_self (hp : fs.placeOf cwd p = .ok above)
    (ha : fs.entry? above = some .directory) : fs.makeDirectory cwd p = .ok fs := by
  have hone (n : Nat) : fs.makeOne cwd { p with parts := p.parts.take (n + 1) } = .ok fs := by
    let start := if p.isAbsolute then [] else cwd
    have hsplit : fs.locate start (p.parts.take (n + 1) ++ p.parts.drop (n + 1)) = _ :=
      locate_append ..
    rw [List.take_append_drop] at hsplit
    have ⟨q, hq, hrest⟩ := bind_eq_ok_iff.mp (hsplit.symm.trans hp)
    have hd : fs.entry? q = some .directory := by
      unfold locate at hrest
      split at hrest
      case h_1 => exact Except.ok.inj hrest ▸ ha
      case h_2 =>
        split at hrest
        case h_1 hd => exact hd
        case h_2 | h_3 => cases hrest
    have hq : fs.placeOf cwd { p with parts := p.parts.take (n + 1) } = .ok q := hq
    rw [makeOne, hq]
    simp only [hd]
  unfold makeDirectory
  induction List.range p.parts.length with
  | nil => rfl
  | cons n ns hi => rw [List.foldlM_cons, hone, ok_bind, hi]

end Files

namespace Change

open Files

variable {fs gs hs : Files} {refusals : List FileStep} {cwd above draft : List String} {p : Path}
variable {name text : String} {mode : Option Nat}

-- The names that a draft of a file can have.
def draftName (name : String) (n : Nat) : String :=
  "." ++ name ++ "." ++ toString n ++ ".tmp"

theorem draftName_injective (name : String) : (draftName name).Injective := by
  intro m n h
  rw [draftName, draftName, String.append_left_inj, String.append_right_inj] at h
  exact Nat.repr_inj.mp h

-- A draft gets one of them, and so does not touch any file.
theorem exists_draft (fs : Files) (above : List String) (name : String) :
    ∃ n, draftPlace fs above name = above ++ [draftName name n] ∧
      fs.entry? (above ++ [draftName name n]) = none := by
  have ⟨n, hn, hfree⟩ : ∃ n < fs.entries.length + 1,
      fs.entry? (above ++ [draftName name n]) = none :=
    exists_free (fun n => List.append_ne_nil_of_right_ne_nil _ (by simp))
      fun m n h => draftName_injective name (by simpa using h)
  have hfound : (((List.range (fs.entries.length + 1)).map
      fun n => above ++ [draftName name n]).find? fun p => (fs.entry? p).isNone).isSome :=
    List.find?_isSome.mpr ⟨_, List.mem_map_of_mem (List.mem_range.mpr hn), by simp [hfree]⟩
  obtain ⟨place, hplace⟩ := Option.isSome_iff_exists.mp hfound
  have hdraft : draftPlace fs above name = place := congrArg (·.getD above) hplace
  obtain ⟨m, -, rfl⟩ := List.mem_map.mp (List.mem_of_find?_eq_some hplace)
  exact ⟨m, hdraft, by simpa using List.find?_some hplace⟩

-- A step that succeeds did what it is for.
theorem guarded_ok {s : FileStep} {f : Files → Except FileError Files} {P : Files → Prop}
    (h : ∀ gs, f fs = .ok gs → P gs) :
    Ends (guarded refusals s f) fs fun r gs => r = .ok () → P gs :=
  ends_guarded (fun gs hf _ => h gs hf) fun _ he => nomatch he

theorem guarded_allowed {s : FileStep} {f : Files → Except FileError Files} :
    Ends (guarded refusals s f) fs fun r _ => r = .ok () → s ∉ refusals := by
  unfold guarded
  split
  case isTrue    => exact Ends.throw_iff.mpr fun h => nomatch h
  case isFalse h => exact Ends.of_forall fun _ _ _ hm => h (List.contains_iff_mem.mpr hm)

-- There is a draft with a text, and nothing else has changed.
structure Drafted (draft : List String) (text : String) (fs gs : Files) : Prop where
  ne_nil : draft ≠ []
  apart  : Apart draft fs gs
  file   : ∃ m, gs.entry? draft = some (.file (some text) m)

-- A text has taken the place of the file with a name.
structure Placed (draft above : List String) (name text : String) (fs gs : Files) : Prop where
  isName : name ≠ "" ∧ name ≠ ".."
  target : above ++ [name] ≠ draft → fs.entry? (above ++ [name]) ≠ some .directory
  file   : ∃ m, gs.entry? (above ++ [name]) = some (.file (some text) m)
  apart  : ∀ q, q ≠ draft → q ≠ above ++ [name] → gs.entry? q = fs.entry? q

theorem drafted_of_write (h : fs.write draft text = .ok gs) : Drafted draft text fs gs := by
  obtain ⟨hp, _, m, _, rfl⟩ := revise_eq_ok h
  exact ⟨hp, apart_put hp, m, by rw [entry_put hp, if_pos rfl]; rfl⟩

theorem Drafted.setMode {m : Nat} (hd : Drafted draft text fs gs)
    (h : gs.setMode draft m = .ok hs) : Drafted draft text fs hs := by
  obtain ⟨hp, s, _, hf, rfl⟩ := revise_eq_ok h
  obtain ⟨_, hm⟩ := hd.file
  cases hm.symm.trans hf
  exact ⟨hp, hd.apart.trans (apart_put hp), m, by rw [entry_put hp, if_pos rfl]; rfl⟩

theorem Drafted.rename (hd : Drafted draft text fs gs)
    (h : (do gs.rename draft (← placeIn above name)) = .ok hs) :
    Placed draft above name text fs hs := by
  have ⟨target, htarget, h⟩ := bind_eq_ok_iff.mp h
  obtain ⟨hname, rfl⟩ := placeIn_eq_ok htarget
  have hne : above ++ [name] ≠ [] := by simp
  have ⟨m, hm⟩ := hd.file
  unfold Files.rename at h
  rw [hm] at h
  split at h
  case h_1 => cases h
  case h_2 he hnot =>
    cases he
    cases h
    refine ⟨hname, fun hdraft => ?target, ⟨m, ?file⟩, fun q hq hq' => ?apart⟩
    case target => exact hd.apart _ hdraft ▸ hnot
    case file   => rw [entry_put hne, if_pos rfl]
    case apart  => rw [entry_put hne, if_neg hq', entry_remove hd.ne_nil, if_neg hq, hd.apart q hq]
  case h_3 he => cases he

theorem settle_ok : Ends (settle refusals draft above name text mode) fs fun r gs =>
    r = .ok () → Placed draft above name text fs gs := by
  refine Ends.bind _ (guarded_ok fun _ => drafted_of_write) (fun _ fs₁ h₁ => ?_)
    fun _ _ _ h => nomatch h
  have hrename (fs₂ : Files) (h₂ : Drafted draft text fs fs₂) :
      Ends (guarded refusals .rename fun fs => do fs.rename draft (← placeIn above name)) fs₂
        fun r gs => r = .ok () → Placed draft above name text fs gs :=
    guarded_ok fun _ => h₂.rename
  cases mode
  case none => exact hrename fs₁ (h₁ rfl)
  case some =>
    exact Ends.bind _ (guarded_ok fun _ => (h₁ rfl).setMode) (fun _ fs₂ h₂ => hrename fs₂ (h₂ rfl))
      fun _ _ _ h => nomatch h

theorem Placed.of_apart (ha : Apart draft fs gs) (h : Placed draft above name text gs hs) :
    Placed draft above name text fs hs where
  isName := h.isName
  target := fun hne => ha _ hne ▸ h.target hne
  file   := h.file
  apart  := fun q hq hq' => (h.apart q hq hq').trans (ha q hq)

-- Where the draft was, there is nothing that a path leads to, and paths lead to the new file.
theorem Placed.placeOf (h : Placed draft above p.name text fs gs) (hn : fs.entry? draft = none)
    (hp : fs.placeOf cwd p.parent = .ok above) (ha : fs.entry? above = some .directory) :
    gs.placeOf cwd p = .ok (above ++ [p.name]) ∧ gs.placeOf cwd p.parent = .ok above ∧
      gs.entry? above = some .directory := by
  have ⟨_, hfile⟩ := h.file
  have hdraft {q : List String} (hq : (fs.entry? q).isSome) : q ≠ draft := by
    rintro rfl
    simp [hn] at hq
  have hd (q : List String) (hq : fs.entry? q = some .directory) :
      gs.entry? q = some .directory := by
    have hne : q ≠ draft := hdraft (by rw [hq]; rfl)
    refine (h.apart q hne fun he => ?_).trans hq
    exact h.target (he ▸ hne) (he ▸ hq)
  have hsome (q : List String) (hq : (fs.entry? q).isSome) : (gs.entry? q).isSome := by
    by_cases he : q = above ++ [p.name]
    case pos => rw [he, hfile]; rfl
    case neg => exact (h.apart q (hdraft hq) he).symm ▸ hq
  have hparent : gs.placeOf cwd p.parent = .ok above := locate_mono hd hsome hp
  exact ⟨placeOf_eq_ok hparent (hd above ha) h.isName (hfile ▸ rfl), hparent, hd above ha⟩

-- A text that was put in place of the file at a path is what is read there. The directory for it
-- is there.
theorem replace_ok : Ends (replace refusals cwd p text mode) fs fun r gs => r = .ok () →
    gs.read cwd p = .ok text ∧ gs.makeDirectory cwd p.parent = .ok gs := by
  refine Ends.bind (fun _ _ => True) (Ends.of_forall fun _ _ => trivial) (fun _ fs₁ _ => ?_)
    fun _ _ _ h => nomatch h
  refine Ends.bind_iff.mpr (Ends.get_iff.mpr ?_)
  dsimp only
  split
  case h_1 => exact Ends.throw_iff.mpr fun h => nomatch h
  case h_2 above habove =>
    have ⟨n, hdraft, hfree⟩ := exists_draft fs₁ above p.name
    rw [hdraft]
    generalize draftName p.name n = own at hfree
    refine Ends.bind _ (guarded_ok fun fs₂ => create_eq_ok) (fun _ fs₂ h₂ => ?_)
      fun _ _ _ h => nomatch h
    obtain ⟨hne, hup, -, h₂⟩ := h₂ rfl
    rw [List.dropLast_concat] at hup
    refine Ends.tryCatch_iff.mpr (settle_ok.mono fun r gs h => ?_)
    cases r
    case error =>
      exact Ends.bind_iff.mpr (Ends.modify_iff.mpr (Ends.throw_iff.mpr fun h => nomatch h))
    case ok =>
      intro _
      have h := (h rfl).of_apart (h₂ ▸ apart_put hne)
      have ⟨hplace, hparent, hdir⟩ := h.placeOf hfree habove hup
      have ⟨_, hfile⟩ := h.file
      refine ⟨?read, makeDirectory_eq_self hparent hdir⟩
      rw [Files.read, hplace, ok_bind]
      simp only [hfile, pure_eq_ok]

end Change

end ShellArgs
