import ShellArgs.Proofs.Files.Kept
import ShellArgs.Proofs.Session.Loading

-- A run that fails leaves all files as they were. Each command changes files only in its last
-- step that can fail, and that step is a replacement.

namespace ShellArgs

open Files

namespace Session

-- The files of the one session are those of the other.
def Spares (s t : Session) : Prop :=
  s.files.Grounded → s.files.Keeps t.files

instance : Std.Refl Spares where
  refl s _ := .refl s.files

instance : Trans Spares Spares Spares where
  trans h h' hg := (h hg).trans (h' ((h hg).grounded hg))

end Session

namespace Task

variable {α β : Type}

-- Whatever comes of it, the task leaves all files alone.
abbrev Harmless (x : Task α) : Prop :=
  Within Session.Spares x

-- The task leaves all files alone if it fails.
abbrev Clean (x : Task α) : Prop :=
  FailsWithin Session.Spares x

theorem print_harmless (cs : List Chunk) : Harmless (print cs) :=
  .modify fun _ _ => .refl _

-- Behind a clean task nothing may fail.
theorem Clean.print {x : Task Unit} (hx : Clean x) (cs : List Chunk) :
    Clean (do x; print cs) := by
  refine fun s => Ends.bind _ (hx s) (fun _ t _ => ?_) fun _ _ h stop _ => h _ rfl
  exact Ends.modify_iff.mpr fun _ he => nomatch he

theorem makeDirectory_harmless (e : Environment) (p : Path) : Harmless (makeDirectory e p) := by
  refine fun s => ends_change ((Ends.imp Change.makeDirectory_keeps).mono fun r files h => ?_)
  cases r <;> exact h

theorem replace_clean (e : Environment) (p : Path) (text : String) (mode : Option Nat) :
    Clean (replace e p text mode) := by
  refine fun s => ends_change ((Ends.imp Change.replace_keeps).mono fun r files h => ?_)
  cases r
  case ok      => exact fun _ he => nomatch he
  case error e => exact fun _ _ hg => h hg e rfl

theorem print_clean (cs : List Chunk) : Clean (print cs) :=
  (print_harmless cs).fails

variable (e : Environment) (pr : Printer)

theorem store_clean (s : Settings) : Clean (store e s) :=
  (makeDirectory_harmless e _).bind_fails fun _ => replace_clean e _ _ _

theorem report_harmless (r : Report) (script : Path) : Harmless (report pr r script) := by
  refine .bind (print_harmless _) fun _ => ?_
  split
  case isTrue  => exact .pure _
  case isFalse => exact fail_within _

theorem compiled_harmless (script : Path) (text : String) (o : Options) :
    Harmless (compiled pr script text o) := by
  refine .bind (compileScript_within text o) fun c => ?_
  refine .bind (print_harmless _) fun _ => .bind (report_harmless pr _ _) fun _ => ?_
  split
  case h_1 => exact .pure _
  case h_2 => exact .throw _

theorem compileCommand_clean (script : Path) (flags : CompileFlags) (output : Option Path) :
    Clean (compileCommand e pr script flags output) := by
  refine (options_within (makeDirectory_harmless e) _ _ _).bind_fails fun o => ?_
  refine (readScript_within script).bind_fails fun text => ?_
  refine (compiled_harmless pr script text o).bind_fails fun (r, code) => ?_
  refine (print_harmless _).bind_fails fun _ => ?_
  split
  case h_1 => exact (replace_clean e _ _ _).print _
  case h_2 => exact print_clean _

theorem buildCommand_clean (script : Path) (flags : CompileFlags) (output : Path) :
    Clean (buildCommand e pr script flags output) := by
  refine (readScript_within script).bind_fails fun text => ?_
  refine (options_within (makeDirectory_harmless e) _ _ _).bind_fails fun o => ?_
  refine (compiled_harmless pr script text o).bind_fails fun (r, code) => ?_
  exact (replace_clean e _ _ _).print _

theorem checkCommand_harmless (script : Path) : Harmless (checkCommand e pr script) :=
  .bind (readScript_within script) fun _ => .bind (checkScript_within _) fun _ =>
    .bind (print_harmless _) fun _ => .bind (report_harmless pr _ _) fun _ => print_harmless _

theorem inspectCommand_harmless (script : Path) : Harmless (inspectCommand e pr script) := by
  refine .bind (readScript_within script) fun _ => .bind (checkScript_within _) fun _ => ?_
  refine .bind (print_harmless _) fun _ => .bind (report_harmless pr _ _) fun _ => ?_
  split
  case isTrue => exact print_harmless _
  case isFalse =>
    split
    case h_1 => exact print_harmless _
    case h_2 => exact .throw _

theorem candidates_harmless (script : Path) (r : Report) (s : Settings) (cursor : Int)
    (words : List String) : Harmless (candidates pr script r s cursor words) :=
  .bind .get fun _ => .bind (.modify fun _ _ => .refl _) fun _ =>
    .bind (print_harmless _) fun _ => print_harmless _

theorem completeCommand_harmless (script : Path) (cursor : Int) (words : List String) :
    Harmless (completeCommand e pr script cursor words) := by
  refine .tryCatch ?_ fun stop => ?_
  case refine_1 =>
    refine .bind (settings_within (makeDirectory_harmless e) _) fun s => ?_
    refine .bind (readScript_within script) fun _ => ?_
    refine .bind (checkScript_within _) fun r => .bind (print_harmless _) fun _ => ?_
    split
    case isTrue  => exact candidates_harmless pr script r s cursor words
    case isFalse => exact print_harmless _
  case refine_2 =>
    split
    case h_1 => exact print_harmless _
    case h_2 => exact .throw _

theorem showCompletionCommand_harmless (script : Path) (prog : Option String) :
    Harmless (showCompletionCommand e script prog) :=
  .bind (registration_within script prog) fun _ => print_harmless _

theorem installCompletionCommand_clean (script : Path) (prog : Option String) :
    Clean (installCompletionCommand e pr script prog) :=
  (registration_within script prog).bind_fails fun _ => (replace_clean e _ _ _).print _

theorem showSettingsCommand_harmless : Harmless (showSettingsCommand e pr) := by
  refine .bind (userSettings_within (makeDirectory_harmless e)) fun _ => ?_
  refine .bind (print_harmless _) fun _ => .bind (print_harmless _) fun _ => ?_
  split
  case isTrue  => exact .throw _
  case isFalse => exact .pure _

theorem setSettingCommand_clean (key value : String) :
    Clean (setSettingCommand e pr key value) := by
  refine (userSettings_within (makeDirectory_harmless e)).bind_fails fun s => ?_
  split
  case h_1 => exact (fail_within _).fails
  case h_2 => exact (store_clean e _).print _

theorem confirm_harmless (question : String) (lines : List String) :
    Harmless (confirm question lines) := by
  induction lines with
  | nil => exact .bind (print_harmless _) fun _ => .bind (print_harmless _) fun _ => .throw _
  | cons line lines hi =>
    refine .bind (print_harmless _) fun _ => .bind (.modify fun _ _ => .refl _) fun _ => ?_
    split
    case h_1 | h_2 => exact .pure _
    case h_3       => exact .bind (print_harmless _) fun _ => hi

theorem resetSettingsCommand_clean (force : Bool) : Clean (resetSettingsCommand e pr force) := by
  have hanswer (sure : Bool) : Clean (if sure then do
        store e {}
        print (pr.success "Configuration reset to defaults.")
      else print (pr.info "Cancelled.")) := by
    split
    case isTrue  => exact (store_clean e _).print _
    case isFalse => exact print_clean _
  cases force
  case true  => exact hanswer true
  case false =>
    exact Within.get.bind_fails fun s => (confirm_harmless _ s.input).bind_fails hanswer

theorem ofRequest_clean (force : Bool) (r : Request) : Clean (ofRequest e pr force r) := by
  cases r
  case compile => exact compileCommand_clean e pr _ _ _
  case build => exact buildCommand_clean e pr _ _ _
  case check => exact (checkCommand_harmless e pr _).fails
  case inspect => exact (inspectCommand_harmless e pr _).fails
  case complete => exact (completeCommand_harmless e pr _ _ _).fails
  case showCompletion => exact (showCompletionCommand_harmless e _ _).fails
  case installCompletion => exact installCompletionCommand_clean e pr _ _
  case showSettings => exact (showSettingsCommand_harmless e pr).fails
  case setSetting => exact setSettingCommand_clean e pr _ _
  case resetSettings => exact resetSettingsCommand_clean e pr force

end Task

namespace Session

variable {e : Environment} {s : Session}

theorem crashNote_files {fs : Files} (hg : fs.Grounded) (cause : String) (place : List String) :
    Ends (crashNote e cause) fs fun _ gs =>
      gs.file? place = fs.file? place ∨ gs.placeOf e.cwd e.crashLog = .ok place := by
  refine Ends.bind (fun _ => fs.Keeps) (Change.makeDirectory_keeps hg) ?_ fun _ _ hk =>
    .inl (hk.file? place)
  rintro - gs hk
  refine Change.ends_guarded (fun hs h => ?_) fun _ => .inl (hk.file? place)
  have ⟨note, hnote, hapart⟩ := overwrite_eq_ok (hk.grounded hg) h
  by_cases he : place = note
  case pos => exact .inr (he ▸ hnote)
  case neg => exact .inl ((file?_congr (hapart place he)).trans (hk.file? place))

theorem logCrash_files (hg : s.files.Grounded) (cause : String) (place : List String) :
    (s.logCrash e cause).files.file? place = s.files.file? place ∨
      (s.logCrash e cause).files.placeOf e.cwd e.crashLog = .ok place := by
  have h := crashNote_files (e := e) hg cause place
  unfold Ends at h
  unfold logCrash
  generalize (crashNote e cause).run.run s.files = r at h ⊢
  obtain ⟨_ | _, _⟩ := r <;> exact h

theorem perform_failed {task : Task Unit} (hc : task.Clean) (hg : s.files.Grounded)
    (h : (s.perform e task).1 ≠ 0) (place : List String) :
    (s.perform e task).2.files.file? place = s.files.file? place ∨
      (s.perform e task).1 = 1 ∧
        (s.perform e task).2.files.placeOf e.cwd e.crashLog = .ok place := by
  have hk := hc s
  unfold perform at h ⊢
  simp only [Ends, ExceptT.run, StateT.run] at hk h ⊢
  generalize task s = r at hk h ⊢
  obtain ⟨stop | _, t⟩ := r
  case error =>
    have hkept : s.files.Keeps t.files := hk stop rfl hg
    cases stop
    case failed | aborted => exact .inl (hkept.file? place)
    case refused cause =>
      refine (logCrash_files (hkept.grounded hg) cause place).imp (fun he => ?_) fun hp => ⟨rfl, hp⟩
      exact he.trans (hkept.file? place)
  case ok => exact absurd rfl h

-- A system that lets nothing take the place of a file.
def renameRefused : Environment where
  vars := [("HOME", "/home")]
  system := "Linux"
  cwd := []
  time := "0"
  refusals := [.rename]

def withOldRegistration : Session where
  files := {
    entries := [(["a.sh"], .file (some "# @cmd Greet\n") 0o644), (["home"], .directory),
      (["home", ".bash_completion.d"], .directory),
      (["home", ".bash_completion.d", "a.sh"], .file (some "old\n") 0o644)]
  }

end Session

end ShellArgs
