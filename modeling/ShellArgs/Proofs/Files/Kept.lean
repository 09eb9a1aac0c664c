import ShellArgs.Files.Replacement
import ShellArgs.Proofs.Ending
import ShellArgs.Proofs.Outcome

-- What changes of files leave alone. Directories come, but a file is only touched by steps on
-- its own place, and a replacement that fails leaves nothing behind.

namespace ShellArgs

open Outcome

theorem Path.parts_eq (p : Path) (h : p.parts ≠ []) : p.parts = p.parent.parts ++ [p.name] := by
  simp [Path.parent, Path.name, List.getLast?_eq_some_getLast h, List.dropLast_concat_getLast h]

namespace Files

variable {fs gs hs : Files} {place place' above : List String} {e : Entry}

-- The contents of a file, with its mode. Directories are no files.
def file? (fs : Files) (place : List String) : Option (Option String × Nat) :=
  match fs.entry? place with
  | some (.file s m)        => some (s, m)
  | some .directory | none  => none

-- All files are in directories. The list of entries alone does not say so.
def Grounded (fs : Files) : Prop :=
  ∀ place, (fs.file? place).isSome → fs.entry? place.dropLast = some .directory

-- The files are the same, and no directory is gone.
structure Keeps (fs gs : Files) : Prop where
  file?     : ∀ place, gs.file? place = fs.file? place
  directory : ∀ place, fs.entry? place = some .directory → gs.entry? place = some .directory

theorem Keeps.refl (fs : Files) : fs.Keeps fs :=
  ⟨fun _ => rfl, fun _ => id⟩

theorem Keeps.trans (h : fs.Keeps gs) (h' : gs.Keeps hs) : fs.Keeps hs :=
  ⟨fun p => (h'.file? p).trans (h.file? p), fun p => h'.directory p ∘ h.directory p⟩

theorem Keeps.grounded (h : fs.Keeps gs) (hg : fs.Grounded) : gs.Grounded :=
  fun p hp => h.directory _ <| hg p (h.file? p ▸ hp)

theorem file?_congr (h : gs.entry? place = fs.entry? place) : gs.file? place = fs.file? place := by
  simp only [file?, h]

theorem file?_eq_none (h : ∀ s m, fs.entry? place ≠ some (.file s m)) : fs.file? place = none := by
  unfold file?
  split
  case h_1 he => exact absurd he (h _ _)
  case h_2 | h_3 => rfl

theorem isSome_of_file? (h : (fs.file? place).isSome) : (fs.entry? place).isSome := by
  unfold file? at h
  split at h
  case h_1 he    => rw [he]; rfl
  case h_2 | h_3 => cases h

theorem grounded_of_forall (h : ∀ p ∈ fs.entries, fs.entry? p.1.dropLast = some .directory) :
    fs.Grounded := by
  intro place hp
  obtain ⟨f, hf⟩ := Option.isSome_iff_exists.mp (isSome_of_file? hp)
  unfold entry? at hf
  split at hf
  case isTrue hr  => simp [List.isEmpty_iff.mp hr, entry?]
  case isFalse hr =>
    have ⟨_, _, he, _⟩ := List.lookup_eq_some_iff.mp hf
    exact h (place, f) (by simp [he])

theorem keeps_of_entry (h : ∀ p, gs.entry? p = fs.entry? p) : fs.Keeps gs :=
  ⟨fun p => file?_congr (h p), fun p hp => (h p).trans hp⟩

theorem lookup_cons (p : List String) (f : Entry) (es : List (List String × Entry)) :
    ((p, f) :: es).lookup place = if place = p then some f else es.lookup place := by
  by_cases h : place = p
  case pos => rw [h, List.lookup_cons_self, if_pos rfl]
  case neg => rw [List.lookup_cons, beq_false_of_ne h, if_neg h]

theorem lookup_go (es : List (List String × Entry)) :
    (put.go place e es).lookup place' = if place' = place then some e else es.lookup place' := by
  induction es with
  | nil => simp [put.go, lookup_cons]
  | cons f es hi =>
    obtain ⟨p, f⟩ := f
    unfold put.go
    split
    case isTrue h  => grind [lookup_cons]
    case isFalse h => grind [lookup_cons]

theorem lookup_filter (es : List (List String × Entry)) :
    (es.filter (·.1 ≠ place)).lookup place' =
      if place' = place then none else es.lookup place' := by
  induction es with
  | nil => simp
  | cons f es hi =>
    obtain ⟨p, f⟩ := f
    by_cases h : p = place <;> grind [lookup_cons]

theorem entry_put (h : place ≠ []) :
    entry? (fs.put place e) place' = if place' = place then some e else fs.entry? place' := by
  unfold entry? put
  rw [lookup_go]
  grind

theorem entry_remove (h : place ≠ []) :
    entry? (fs.remove place) place' = if place' = place then none else fs.entry? place' := by
  unfold entry? remove
  rw [lookup_filter]
  grind

theorem keeps_put_directory (h : fs.file? place = none) (hp : place ≠ []) :
    fs.Keeps (fs.put place .directory) := by
  constructor
  case file? =>
    intro p
    by_cases hp' : p = place
    case pos => rw [hp', h, file?, entry_put hp, if_pos rfl]
    case neg => exact file?_congr (by rw [entry_put hp, if_neg hp'])
  case directory =>
    intro p hd
    rw [entry_put hp]
    split
    case isTrue  => rfl
    case isFalse => exact hd

theorem locate_append (ps qs : List String) :
    fs.locate place (ps ++ qs) = fs.locate place ps >>= (fs.locate · qs) := by
  induction ps generalizing place with
  | nil => rfl
  | cons p ps hi =>
    simp only [List.cons_append, locate, hi]
    rcases fs.entry? place with _ | _ | _
    case some.directory =>
      by_cases hp : p = ".."
      case pos => simp only [hp, if_true]
      case neg =>
        simp only [hp, if_false]
        split <;> rfl
    all_goals rfl

-- Where a path leads to nothing, there is no file, not even if the directory above is missing.
theorem file?_of_missing {cwd : List String} {p : Path} (hg : fs.Grounded)
    (hp : fs.placeOf cwd p = .error .missing) (ha : fs.placeOf cwd p.parent = .ok above) :
    fs.file? (above ++ [p.name]) = none := by
  have hparts : p.parts ≠ [] := by
    intro h
    simp [placeOf, h, locate] at hp
  rw [placeOf, p.parts_eq hparts, locate_append] at hp
  change fs.locate (if p.isAbsolute then [] else cwd) p.parent.parts = _ at ha
  rw [ha, ok_bind, locate] at hp
  apply file?_eq_none
  intro s m he
  have hd : fs.entry? above = some .directory := by
    simpa using hg (above ++ [p.name]) (by simp [file?, he])
  grind [locate]

theorem keeps_of_makeOne {cwd : List String} {p : Path} (hg : fs.Grounded)
    (h : fs.makeOne cwd p = .ok gs) : fs.Keeps gs := by
  unfold makeOne at h
  split at h
  case h_1 =>
    split at h
    · exact Except.ok.inj h ▸ .refl fs
    · cases h
  case h_2 hp =>
    have ⟨above, ha, h⟩ := bind_eq_ok_iff.mp h
    exact Except.ok.inj h ▸ keeps_put_directory (file?_of_missing hg hp ha) (by simp)
  case h_3 => cases h

theorem keeps_of_makeDirectory {cwd : List String} {p : Path} (hg : fs.Grounded)
    (h : fs.makeDirectory cwd p = .ok gs) : fs.Keeps gs := by
  unfold makeDirectory at h
  generalize List.range p.parts.length = ns at h
  induction ns generalizing fs with
  | nil => exact Except.ok.inj h ▸ .refl fs
  | cons n ns hi =>
    have ⟨fs₁, h₁, h⟩ := bind_eq_ok_iff.mp h
    have hk := keeps_of_makeOne hg h₁
    exact hk.trans (hi (hk.grounded hg) h)

-- The files are the same but for what is at a place.
def Apart (place : List String) (fs gs : Files) : Prop :=
  ∀ p, p ≠ place → gs.entry? p = fs.entry? p

theorem Apart.refl (place : List String) (fs : Files) : Apart place fs fs :=
  fun _ _ => rfl

theorem Apart.trans (h : Apart place fs gs) (h' : Apart place gs hs) : Apart place fs hs :=
  fun p hp => (h' p hp).trans (h p hp)

theorem apart_put (h : place ≠ []) : Apart place fs (fs.put place e) := by
  intro p hp
  rw [entry_put h, if_neg hp]

theorem create_eq_ok {mode : Nat} (h : fs.create place mode = .ok gs) :
    place ≠ [] ∧ fs.entry? place.dropLast = some .directory ∧ fs.entry? place = none ∧
      gs = fs.put place (.file (some "") mode) := by
  unfold create at h
  split at h
  case h_1 hd hn =>
    refine ⟨?_, hd, hn, (Except.ok.inj h).symm⟩
    rintro rfl
    cases hn
  all_goals cases h

theorem revise_eq_ok {text : Option String → Option String} {mode : Nat → Nat}
    (h : fs.revise place text mode = .ok gs) : place ≠ [] ∧
      ∃ s m, fs.entry? place = some (.file s m) ∧ gs = fs.put place (.file (text s) (mode m)) := by
  unfold revise at h
  split at h
  case h_1 hf =>
    refine ⟨?_, _, _, hf, (Except.ok.inj h).symm⟩
    rintro rfl
    cases hf
  all_goals cases h

theorem apart_of_revise {text : Option String → Option String} {mode : Nat → Nat}
    (h : fs.revise place text mode = .ok gs) : Apart place fs gs := by
  have ⟨hp, _, _, _, hgs⟩ := revise_eq_ok h
  exact hgs ▸ apart_put hp

-- What was made at a free place, and only there, is undone by taking it away.
theorem Apart.keeps_remove (h : Apart place fs gs) (hp : place ≠ []) (hn : fs.entry? place = none) :
    fs.Keeps (gs.remove place) := by
  apply keeps_of_entry
  intro p
  rw [entry_remove hp]
  split
  case isTrue he  => rw [he, hn]
  case isFalse he => exact h p he

-- Paths lead on to where they led as long as nothing is gone and directories stay directories.
theorem locate_mono {q : List String} {ps : List String}
    (hd : ∀ p, fs.entry? p = some .directory → gs.entry? p = some .directory)
    (hs : ∀ p, (fs.entry? p).isSome → (gs.entry? p).isSome) (h : fs.locate q ps = .ok place) :
    gs.locate q ps = .ok place := by
  induction ps generalizing q with
  | nil => exact h
  | cons p ps hi =>
    unfold locate at h ⊢
    split at h
    case h_1 hq =>
      simp only [hd q hq]
      grind
    case h_2 | h_3 => cases h

theorem placeIn_eq_ok {name : String} (h : placeIn above name = .ok place) :
    (name ≠ "" ∧ name ≠ "..") ∧ place = above ++ [name] := by
  unfold placeIn at h
  split at h
  case isTrue     => cases h
  case isFalse hn => exact ⟨not_or.mp hn, (Except.ok.inj h).symm⟩

-- What is in a directory, by its name.
theorem placeOf_eq_ok {cwd : List String} {p : Path} (hp : fs.placeOf cwd p.parent = .ok above)
    (ha : fs.entry? above = some .directory) (hn : p.name ≠ "" ∧ p.name ≠ "..")
    (he : (fs.entry? (above ++ [p.name])).isSome) : fs.placeOf cwd p = .ok (above ++ [p.name]) := by
  have hparts : p.parts ≠ [] := fun h => hn.1 (by simp [Path.name, h])
  change fs.locate (if p.isAbsolute then [] else cwd) p.parent.parts = _ at hp
  rw [placeOf, p.parts_eq hparts, locate_append, hp, ok_bind]
  simp only [locate, ha, he, hn]
  rfl

-- A text is written to the file that a path leads to, whether or not it was there before.
theorem overwrite_eq_ok {cwd : List String} {p : Path} {text : String} (hg : fs.Grounded)
    (h : fs.overwrite cwd p text = .ok gs) :
    ∃ place, gs.placeOf cwd p = .ok place ∧ Apart place fs gs := by
  have ⟨above, ha, h⟩ := bind_eq_ok_iff.mp h
  have ⟨place, hplace, h⟩ := bind_eq_ok_iff.mp h
  obtain ⟨hname, rfl⟩ := placeIn_eq_ok hplace
  have ⟨hup, hnd, hapart, hself⟩ : fs.entry? above = some .directory ∧
      fs.entry? (above ++ [p.name]) ≠ some .directory ∧ Apart (above ++ [p.name]) fs gs ∧
      (gs.file? (above ++ [p.name])).isSome := by
    split at h
    case h_1 =>
      have ⟨hp, s, m, hf, hgs⟩ := revise_eq_ok h
      have hup := hg (above ++ [p.name]) (by simp [file?, hf])
      exact ⟨by simpa using hup, by simp [hf], hgs ▸ apart_put hp,
        by simp [hgs, file?, entry_put hp]⟩
    case h_2 hn =>
      have ⟨hs, hcreate, h⟩ := bind_eq_ok_iff.mp h
      have ⟨hp, hup, _, hhs⟩ := create_eq_ok hcreate
      have ⟨_, s, m, _, hgs⟩ := revise_eq_ok h
      refine ⟨by simpa using hup, by simp [hn], ?_, by simp [hgs, file?, entry_put hp]⟩
      exact (hhs ▸ apart_put hp).trans (hgs ▸ apart_put hp)
  have hd (q : List String) (hq : fs.entry? q = some .directory) : gs.entry? q = some .directory :=
    (hapart q fun he => hnd (he ▸ hq)).trans hq
  have hsome (q : List String) (hq : (fs.entry? q).isSome) : (gs.entry? q).isSome := by
    by_cases he : q = above ++ [p.name]
    case pos => exact he ▸ isSome_of_file? hself
    case neg => exact (hapart q he).symm ▸ hq
  exact ⟨above ++ [p.name],
    placeOf_eq_ok (locate_mono hd hsome ha) (hd above hup) hname (isSome_of_file? hself), hapart⟩

end Files

namespace Change

open Files

variable {fs : Files} {f : Files → Except FileError Files} {refusals : List FileStep}
variable {Q : Except FileError Unit → Files → Prop}

-- A step that is refused changes nothing.
theorem ends_step (ho : ∀ gs, f fs = .ok gs → Q (.ok ()) gs) (he : ∀ e, Q (.error e) fs) :
    Ends (step f) fs Q := by
  refine Ends.bind_iff.mpr (Ends.get_iff.mpr ?_)
  cases h : f fs
  case ok gs   => simpa only [h] using Ends.set_iff.mpr (ho gs h)
  case error e => simpa only [h] using Ends.throw_iff.mpr (he e)

theorem ends_guarded {s : FileStep} (ho : ∀ gs, f fs = .ok gs → Q (.ok ()) gs)
    (he : ∀ e, Q (.error e) fs) : Ends (guarded refusals s f) fs Q := by
  unfold guarded
  split
  case isTrue  => exact Ends.throw_iff.mpr (he _)
  case isFalse => exact ends_step ho he

theorem makeDirectory_keeps {cwd : List String} {p : Path} (hg : fs.Grounded) :
    Ends (makeDirectory refusals cwd p) fs fun _ => fs.Keeps :=
  ends_guarded (fun _ h => keeps_of_makeDirectory hg h) fun _ => .refl fs

-- Until the draft takes the place of the file, only the draft changes.
theorem settle_apart {draft above : List String} {name text : String} {mode : Option Nat} :
    Ends (settle refusals draft above name text mode) fs fun r gs =>
      ∀ e, r = .error e → Apart draft fs gs := by
  refine Ends.bind (fun _ => Apart draft fs) ?write ?_ fun _ _ h _ _ => h
  case write =>
    exact ends_guarded (fun _ h => apart_of_revise h) fun _ => .refl draft fs
  rintro - fs₁ h₁
  have hrename (fs₂ : Files) (h₂ : Apart draft fs fs₂) :
      Ends (guarded refusals .rename fun fs => do fs.rename draft (← placeIn above name)) fs₂
        fun r gs => ∀ e, r = .error e → Apart draft fs gs :=
    ends_guarded (fun _ _ _ he => nomatch he) fun _ _ _ => h₂
  cases mode
  case none => exact hrename fs₁ h₁
  case some =>
    refine Ends.bind (fun _ => Apart draft fs) ?setMode (fun _ => hrename) fun _ _ h _ _ => h
    exact ends_guarded (fun _ h => h₁.trans (apart_of_revise h)) fun _ => h₁

theorem replace_keeps {cwd : List String} {p : Path} {text : String} {mode : Option Nat}
    (hg : fs.Grounded) : Ends (replace refusals cwd p text mode) fs fun r gs =>
      ∀ e, r = .error e → fs.Keeps gs := by
  refine Ends.bind (fun _ => fs.Keeps) ?above ?_ fun _ _ h _ _ => h
  case above => exact makeDirectory_keeps hg
  rintro - fs₁ h₁
  refine Ends.bind_iff.mpr (Ends.get_iff.mpr ?_)
  dsimp only
  split
  case h_1 => exact Ends.throw_iff.mpr fun _ _ => h₁
  case h_2 above _ =>
    generalize draftPlace fs₁ above p.name = draft
    refine Ends.bind (fun r fs₂ => match r with
      | .ok _    => draft ≠ [] ∧ fs₁.entry? draft = none ∧ Apart draft fs₁ fs₂
      | .error _ => fs.Keeps fs₂) ?create ?_ fun _ _ h _ _ => h
    case create =>
      refine ends_guarded (fun fs₂ h => ?_) fun _ => h₁
      have ⟨hp, _, hn, h₂⟩ := create_eq_ok h
      exact ⟨hp, hn, h₂ ▸ apart_put hp⟩
    rintro - fs₂ ⟨hp, hn, h₂⟩
    refine Ends.tryCatch_iff.mpr (settle_apart.mono fun r fs₃ h₃ => ?_)
    cases r
    case ok => exact fun _ he => nomatch he
    case error e =>
      refine Ends.bind_iff.mpr (Ends.modify_iff.mpr (Ends.throw_iff.mpr fun _ _ => ?_))
      exact h₁.trans ((h₂.trans (h₃ e rfl)).keeps_remove hp hn)

end Change

end ShellArgs
