import ShellArgs.Proofs.Ending
import ShellArgs.Session.Run

namespace ShellArgs.Task

variable {α : Type} {e : Environment} {R : Session → Session → Prop}

theorem ends_change {c : Change Unit} {s : Session} {Q : Except Stop Unit → Session → Prop}
    (h : Ends c s.files fun r files => match r with
      | .ok ()   => Q (.ok ()) { s with files }
      | .error e => Q (.error (.refused e.message)) { s with files }) : Ends (change c) s Q := by
  refine Ends.bind_iff.mpr (Ends.get_iff.mpr (Ends.bind_iff.mpr (Ends.modify_iff.mpr ?_)))
  simp only [Ends, ExceptT.run, StateT.run] at h ⊢
  generalize c s.files = r at h ⊢
  obtain ⟨_ | _, files⟩ := r <;> exact h

-- What a task has found when it succeeds, in terms of the files alone.
section

variable {s t : Session} {p : Path} {text : String}

theorem change_eq_ok_iff {c : Change Unit} : (change c).run.run s = (.ok (), t) ↔
    ∃ files, c.run.run s.files = (.ok (), files) ∧ { s with files } = t := by
  unfold change
  rw [run_get_bind]
  rcases c.run.run s.files with ⟨e | _, files⟩
  case error => exact ⟨(nomatch ·), fun ⟨_, h, _⟩ => nomatch h⟩
  case ok =>
    constructor
    · intro h
      exact ⟨files, rfl, congrArg Prod.snd h⟩
    · rintro ⟨_, ⟨⟩, rfl⟩
      rfl

theorem makeDirectory_eq_ok_iff {u : Unit} : (makeDirectory e p).run.run s = (.ok u, t) ↔
    .makeDirectory ∉ e.refusals ∧ ∃ files, s.files.makeDirectory e.cwd p = .ok files ∧
      { s with files } = t := by
  rw [makeDirectory, change_eq_ok_iff, Change.makeDirectory, Change.guarded, ← List.contains_iff_mem]
  split
  case isTrue h => exact ⟨fun ⟨_, hr, _⟩ => (nomatch hr), fun hr => absurd h hr.1⟩
  case isFalse h =>
    rw [Change.step, run_get_bind]
    cases s.files.makeDirectory e.cwd p with
    | error => exact ⟨fun ⟨_, hr, _⟩ => (nomatch hr), fun ⟨_, _, hr, _⟩ => (nomatch hr)⟩
    | ok files =>
      constructor
      · rintro ⟨_, ⟨⟩, ht⟩
        exact ⟨h, files, rfl, ht⟩
      · rintro ⟨_, _, ⟨⟩, ht⟩
        exact ⟨files, rfl, ht⟩

theorem layer_eq_ok_iff {x : Except Settings.LayerError α} {a : α} :
    (layer e x).run.run s = (.ok a, t) ↔ x = .ok a ∧ s = t := by
  unfold layer
  split
  case h_1 b => rw [run_pure_eq_ok_iff, Except.ok.injEq]
  case h_2 | h_3 => exact ⟨(nomatch ·), fun h => nomatch h.1⟩

theorem readScript_eq_ok_iff : (readScript e p).run.run s = (.ok text, t) ↔
    (∃ raw, s.files.read e.cwd p = .ok raw ∧
      String.ofList (Text.normalizeLineEnds raw.toList) = text) ∧ s = t := by
  rw [readScript, run_get_bind]
  split
  case h_1 raw h => simp only [run_pure_eq_ok_iff, h, Except.ok.injEq, exists_eq_left']
  case h_2 h | h_3 h => exact ⟨(nomatch ·), fun ⟨⟨_, hr, _⟩, _⟩ => nomatch h ▸ hr⟩

theorem source_eq_ok_iff {x : Settings.Source} :
    (source e p).run.run s = (.ok x, t) ↔ s.files.settings e.cwd p = x ∧ s = t := by
  rw [source, run_get_bind, run_pure_eq_ok_iff]

theorem userSource_eq_ok_iff {x : Settings.Source} :
    (userSource e).run.run s = (.ok x, t) ↔ .makeDirectory ∉ e.refusals ∧ ∃ files,
      s.files.makeDirectory e.cwd e.configDirectory = .ok files ∧
      files.settings e.cwd e.userSettings = x ∧ { s with files } = t := by
  simp only [userSource, run_bind_eq_ok_iff, makeDirectory_eq_ok_iff, source_eq_ok_iff]
  constructor
  · rintro ⟨_, _, ⟨hr, files, hm, rfl⟩, hx, ht⟩
    exact ⟨hr, files, hm, hx, ht⟩
  · rintro ⟨hr, files, hm, hx, ht⟩
    exact ⟨(), _, ⟨hr, files, hm, rfl⟩, hx, ht⟩

theorem userSettings_eq_ok_iff {c : Settings} :
    (userSettings e).run.run s = (.ok c, t) ↔ .makeDirectory ∉ e.refusals ∧ ∃ files,
      s.files.makeDirectory e.cwd e.configDirectory = .ok files ∧
      Settings.ofUser (files.settings e.cwd e.userSettings) = .ok c ∧ { s with files } = t := by
  simp only [userSettings, run_bind_eq_ok_iff, userSource_eq_ok_iff, layer_eq_ok_iff]
  constructor
  · rintro ⟨_, _, ⟨hr, files, hm, rfl, rfl⟩, hc, ht⟩
    exact ⟨hr, files, hm, hc, ht⟩
  · rintro ⟨hr, files, hm, hc, ht⟩
    exact ⟨_, _, ⟨hr, files, hm, rfl, rfl⟩, hc, ht⟩

theorem settings_eq_ok_iff {flags : List Settings.Override} {c : Settings} :
    (settings e flags).run.run s = (.ok c, t) ↔ .makeDirectory ∉ e.refusals ∧ ∃ files,
      s.files.makeDirectory e.cwd e.configDirectory = .ok files ∧
      Settings.resolve (files.settings e.cwd e.userSettings) (files.settings e.cwd e.projectSettings)
        (Settings.ofEnvironment e.vars ++ flags) = .ok c ∧ { s with files } = t := by
  simp only [settings, run_bind_eq_ok_iff, userSource_eq_ok_iff, source_eq_ok_iff, layer_eq_ok_iff]
  constructor
  · rintro ⟨_, _, ⟨hr, files, hm, rfl, rfl⟩, _, _, ⟨rfl, rfl⟩, hc, ht⟩
    exact ⟨hr, files, hm, hc, ht⟩
  · rintro ⟨hr, files, hm, hc, ht⟩
    exact ⟨_, _, ⟨hr, files, hm, rfl, rfl⟩, _, _, ⟨rfl, rfl⟩, hc, ht⟩

end

variable [Std.Refl R]

theorem fail_within (f : Failure) : Within R (fail f : Task α) :=
  .throw _

theorem layer_within (x : Except Settings.LayerError α) : Within R (layer e x) := by
  unfold layer
  split
  case h_1 => exact .pure _
  case h_2 => exact .throw _
  case h_3 => exact fail_within _

theorem checkScript_within (text : String) : Within R (checkScript text) := by
  unfold checkScript
  split
  case h_1 => exact .pure _
  case h_2 => exact .throw _

theorem compileScript_within (text : String) (o : Options) : Within R (compileScript text o) := by
  unfold compileScript
  split
  case h_1 => exact .pure _
  case h_2 => exact fail_within _
  case h_3 => exact .throw _

variable [Trans R R R]

theorem readScript_within (p : Path) : Within R (readScript e p) := by
  refine .bind .get fun s => ?_
  split
  case h_1       => exact .pure _
  case h_2 | h_3 => exact fail_within _

theorem source_within (p : Path) : Within R (source e p) :=
  .bind .get fun _ => .pure _

theorem registration_within (script : Path) (prog : Option String) :
    Within R (registration e script prog) :=
  .bind (readScript_within script) fun _ => .pure _

variable (hd : ∀ p, Within R (makeDirectory e p))
include hd

theorem userSource_within : Within R (userSource e) :=
  .bind (hd _) fun _ => source_within _

theorem userSettings_within : Within R (userSettings e) :=
  .bind (userSource_within hd) fun _ => layer_within _

theorem settings_within (flags : List Settings.Override) : Within R (settings e flags) :=
  .bind (userSource_within hd) fun _ => .bind (source_within _) fun _ => layer_within _

theorem options_within (script : Path) (prog : Option String) (flags : CompileFlags) :
    Within R (options e script prog flags) :=
  .bind (settings_within hd _) fun _ => .pure _

end ShellArgs.Task
