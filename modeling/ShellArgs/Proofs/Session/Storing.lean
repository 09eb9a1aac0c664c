import ShellArgs.Proofs.Files.Replaced
import ShellArgs.Proofs.Session.Output
import ShellArgs.Proofs.Settings.Stored

-- Settings that a run stores are the ones that later runs load. Setting one of them changes no
-- other.

namespace ShellArgs

open Outcome

-- The file for the settings of the user holds these ones, in a directory that may be asked for.
structure Session.Holds (e : Environment) (c : Settings) (s : Session) : Prop where
  allowed   : .makeDirectory ∉ e.refusals
  directory : s.files.makeDirectory e.cwd e.configDirectory = .ok s.files
  text      : s.files.read e.cwd e.userSettings = .ok c.stored

theorem Environment.parent_userSettings (e : Environment) :
    e.userSettings.parent = e.configDirectory := by
  have hname : Path.ofText "config.json" = { root := "", parts := ["config.json"] } := by decide
  simp [userSettings, Path.child, hname, Path.under, Path.isAbsolute, Path.parent]

namespace Task

variable {e : Environment} {pr : Printer} {s : Session} {c : Settings}

-- The settings that the task loads in a session.
def Loads (e : Environment) (s : Session) (c : Settings) : Prop :=
  Ends (userSettings e) s fun r _ => r = .ok c

theorem loads_of_holds (h : s.Holds e c) (hc : c.Valid) (ht : Json.Rereads c.hookTimeout) :
    Loads e s c := by
  have htext : s.files.settings e.cwd e.userSettings = .text c.stored := by
    rw [Files.settings, h.text]
  have hloaded : (userSettings e).run.run s = (.ok c, s) :=
    userSettings_eq_ok_iff.mpr
      ⟨h.allowed, s.files, h.directory, htext ▸ Settings.ofUser_stored hc ht, rfl⟩
  exact congrArg Prod.fst hloaded

theorem store_holds : Ends (store e c) s fun r t => r = .ok () → t.Holds e c := by
  refine Ends.bind (fun r _ => r = .ok () → .makeDirectory ∉ e.refusals) ?directory ?replace
    fun _ _ _ h => nomatch h
  case directory =>
    refine ends_change (Change.guarded_allowed.mono fun r _ h => ?_)
    cases r
    case ok    => exact fun _ => h rfl
    case error => exact fun h => nomatch h
  case replace =>
    intro _ t ha
    refine ends_change (Change.replace_ok.mono fun r fs h => ?_)
    cases r
    case error => exact fun h => nomatch h
    case ok =>
      intro _
      have ⟨htext, hdir⟩ := h rfl
      exact ⟨ha rfl, e.parent_userSettings ▸ hdir, htext⟩

-- What is stored is what later runs load.
theorem store_loads (hc : c.Valid) (ht : Json.Rereads c.hookTimeout) :
    Ends (store e c) s fun r t => r = .ok () → Loads e t c :=
  store_holds.mono fun _ _ h hr => loads_of_holds (h hr) hc ht

theorem Loads.valid (h : Loads e s c) : c.Valid := by
  have hloaded : (userSettings e).run.run s = (.ok c, ((userSettings e).run.run s).2) :=
    Prod.ext h rfl
  have ⟨_, _, _, huser, _⟩ := userSettings_eq_ok_iff.mp hloaded
  exact Settings.valid_of_ofUser huser

theorem setSettingCommand_holds {key value : String} (h : Loads e s c) :
    Ends (setSettingCommand e pr key value) s fun r t => r = .ok () →
      ∃ d w, c.edit key value = .ok (d, w) ∧ t.Holds e d := by
  refine Ends.bind (fun r _ => r = .ok c) h ?_ fun _ _ h => nomatch h
  rintro _ t h
  cases h
  split
  case h_1 => exact Ends.throw_iff.mpr fun h => nomatch h
  case h_2 d w hedit =>
    refine Ends.bind _ store_holds (fun _ u h => ?_) fun _ _ _ h => nomatch h
    have h := h rfl
    exact ends_print.mpr fun _ => ⟨d, w, hedit, h.allowed, h.directory, h.text⟩

end Task

namespace Session

variable {e : Environment} {s : Session}

theorem perform_zero {task : Task Unit} {P : Session → Prop}
    (h : Ends task s fun r t => r = .ok () → P t) (hz : (s.perform e task).1 = 0) :
    P (s.perform e task).2 := by
  unfold perform at hz ⊢
  simp only [Ends, ExceptT.run, StateT.run] at h hz ⊢
  generalize task s = r at h hz ⊢
  obtain ⟨stop | _, t⟩ := r
  case ok => exact h rfl
  case error =>
    cases stop
    case failed f         => exact absurd hz (Stop.failed f).status_ne_zero
    case aborted | refused => cases hz

-- Settings that are stored are loaded again as they are. A run that sets one of them gives it the
-- value of the text, and leaves all others what they were, whatever key it is given. A finite time
-- has to be read again from what is written of it.
theorem setSetting_loads (e : Environment) :
    (∀ (s : Session) (c : Settings), c.Valid →
      (c.hookTimeout.isFinite → Json.Rereads c.hookTimeout) →
        Ends (Task.store e c) s fun r t => r = .ok () → Task.Loads e t c) ∧
    ∀ (s : Session) (c : Settings) (args : List String) (g : GlobalFlags) (key value : String),
      Invocation.read args = .ok (.run g (.setSetting key value)) → Task.Loads e s c →
        (∀ x : Binary64, x.isFinite →
          x = c.hookTimeout ∨ Decimal.readFloat? value.toList = some x → Json.Rereads x) →
        (s.invoke e args).1 = 0 →
          ∃ (σ : Setting) (d : Settings), key = σ.path ∧
            Settings.coerce key (σ.write (σ.get c)) value = .ok (σ.write (σ.get d)) ∧
            (∀ τ ≠ σ, τ.get d = τ.get c) ∧ Task.Loads e (s.invoke e args).2 d := by
  constructor
  case left =>
    intro s c hc hf
    exact Task.store_loads hc (hc.rereads hf)
  case right =>
    intro s c args g key value hargs hl hf hz
    have hinvoke : s.invoke e args =
        s.perform e (Task.setSettingCommand e g.printer key value) := by
      rw [invoke, hargs]
      rfl
    rw [hinvoke] at hz ⊢
    obtain ⟨d, w, hedit, hd⟩ := perform_zero (Task.setSettingCommand_holds hl) hz
    obtain ⟨σ, hkey, hvalue, hother⟩ := Settings.exists_of_edit hl.valid hedit
    have hvalid := Settings.valid_of_edit hedit
    have ht : Json.Rereads d.hookTimeout :=
      hvalid.rereads fun hfin => hf _ hfin (Settings.hookTimeout_of_edit hl.valid hedit)
    exact ⟨σ, d, hkey, hvalue, hother, Task.loads_of_holds hd hvalid ht⟩

-- A user who has stored a format.
def withFormat : Session where
  files := {
    entries := [(["home"], .directory), (["home", ".config"], .directory),
      (["home", ".config", "argsh"], .directory),
      (["home", ".config", "argsh", "config.json"],
        .file (some "\x7b\"output\": \x7b\"format\": \"json\"\x7d\x7d\n") 0o644)]
  }

theorem setSetting_loads_stem :
    (withFormat.invoke atHome ["config", "set", "compile.prefix", "opt"]).1 = 0 ∧
      Task.Loads atHome withFormat { format := "json" } ∧
      Task.Loads atHome (withFormat.invoke atHome ["config", "set", "compile.prefix", "opt"]).2
        { compile := { stem := "opt" }, format := "json" } := by
  have hargs : Invocation.read ["config", "set", "compile.prefix", "opt"] =
      .ok (.run {} (.setSetting "compile.prefix" "opt")) :=
    eq_ok_of_toOption (by decide +kernel)
  have hzero : (withFormat.invoke atHome ["config", "set", "compile.prefix", "opt"]).1 = 0 := by
    decide +kernel
  have hl : Task.Loads atHome withFormat { format := "json" } :=
    eq_ok_of_toOption (by decide +kernel)
  have hf (x : Binary64) (_ : x.isFinite)
      (h : x = .ofInt 5 ∨ Decimal.readFloat? "opt".toList = some x) : Json.Rereads x := by
    have hnone : Decimal.readFloat? "opt".toList = none := by decide
    rw [hnone] at h
    exact h.resolve_right nofun ▸ rfl
  obtain ⟨σ, ⟨⟨prog, stem, addHelp, addVersion⟩, timeout, format⟩, hkey, hvalue, hother, h⟩ :=
    (setSetting_loads atHome).2 _ _ _ _ _ _ hargs hl hf hzero
  have hpath : ∀ τ : Setting, "compile.prefix" = τ.path → τ = .stem := by decide
  obtain rfl := hpath σ hkey
  cases hvalue
  cases hother .prog (by decide)
  cases hother .addHelp (by decide)
  cases hother .addVersion (by decide)
  cases hother .hookTimeout (by decide)
  cases hother .format (by decide)
  exact ⟨hzero, hl, h⟩

end Session

end ShellArgs
