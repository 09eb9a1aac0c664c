import ShellArgs.Proofs.Generation
import ShellArgs.Proofs.Session.Arguments
import ShellArgs.Proofs.Session.Loading

namespace ShellArgs

def Stop.status : Stop → Nat
  | failed f            => f.status
  | aborted | refused _ => 1

theorem Stop.status_ne_zero (stop : Stop) : stop.status ≠ 0 := by
  rcases stop with f | _ | _
  case failed => cases f <;> simp [status, Failure.status]
  all_goals simp [status]

namespace Session

-- All that was written to standard output.
def output (s : Session) : String :=
  Stream.output.written s.chunks

-- Nothing was added to standard output.
def Silent (s t : Session) : Prop :=
  t.output = s.output

instance : Std.Refl Silent where
  refl _ := rfl

instance : Trans Silent Silent Silent where
  trans h h' := h'.trans h

-- The code that comes of what is in the files: the settings and the script. The directory for
-- settings is made before they are looked at.
def Compiles (s : Session) (e : Environment) (script : Path) (flags : CompileFlags)
    (code : String) : Prop :=
  .makeDirectory ∉ e.refusals ∧ ∃ files settings text c,
    s.files.makeDirectory e.cwd e.configDirectory = .ok files ∧
    Settings.resolve (files.settings e.cwd e.userSettings) (files.settings e.cwd e.projectSettings)
      (Settings.ofEnvironment e.vars ++ Settings.ofFlags flags.stem flags.noHelp none) =
        .ok settings ∧
    files.read e.cwd script = .ok text ∧
    compile (String.ofList (Text.normalizeLineEnds text.toList))
      (settings.compile.options ((nonempty? flags.prog).getD script.name)) = .ok c ∧
    c.code = some code

end Session

namespace Printer

theorem written_note (text : String) : Stream.output.written (note text) = "" := by
  simp [note, Stream.written]

theorem written_debug (pr : Printer) (text : String) :
    Stream.output.written (pr.debug text) = "" := by
  unfold debug
  split
  case isTrue  => exact written_note _
  case isFalse => rfl

theorem written_flatMap {α : Type} {f : α → List Chunk}
    (h : ∀ a, Stream.output.written (f a) = "") (as : List α) :
    Stream.output.written (as.flatMap f) = "" := by
  induction as with
  | nil => rfl
  | cons a as hi => rw [List.flatMap_cons, Stream.written_append, h, hi]; rfl

theorem written_diagnostics (pr : Printer) (ds : List Diagnostic) (source : String) :
    Stream.output.written (pr.diagnostics ds source) = "" := by
  refine written_flatMap (fun d => ?_) ds
  split
  case isTrue  => rfl
  case isFalse => exact written_note _

theorem written_code (text : String) : Stream.output.written (code text) = text := by
  simp [code, Stream.written]

end Printer

namespace Task

open Session

variable {e : Environment} {pr : Printer} {s : Session}

theorem ends_print {cs : List Chunk} {Q : Except Stop Unit → Session → Prop} :
    Ends (print cs) s Q ↔ Q (.ok ()) (s.print cs) :=
  Iff.rfl

theorem ends_print_bind {α : Type} {cs : List Chunk} {f : Unit → Task α}
    {Q : Except Stop α → Session → Prop} :
    Ends (print cs >>= f) s Q ↔ Ends (f ()) (s.print cs) Q :=
  Ends.bind_ok rfl

theorem output_print (cs : List Chunk) :
    (s.print cs).output = s.output ++ Stream.output.written cs := by
  simp [output, Session.print, Stream.written_append]

theorem compiles_iff {script : Path} {flags : CompileFlags} {code : String} :
    s.Compiles e script flags code ↔
      ∃ o t text u c, (options e script flags.prog flags).run.run s = (.ok o, t) ∧
        (readScript e script).run.run t = (.ok text, u) ∧ compile text o = .ok c ∧
        c.code = some code := by
  simp only [options, run_bind_eq_ok_iff, settings_eq_ok_iff, run_pure_eq_ok_iff,
    readScript_eq_ok_iff]
  constructor
  · rintro ⟨hm, files, settings, text, c, hfiles, hs, htext, hc, hcode⟩
    exact ⟨_, _, _, _, c, ⟨settings, _, ⟨hm, files, hfiles, hs, rfl⟩, rfl, rfl⟩,
      ⟨⟨text, htext, rfl⟩, rfl⟩, hc, hcode⟩
  · rintro ⟨_, _, _, _, c, ⟨settings, _, ⟨hm, files, hfiles, hs, rfl⟩, rfl, rfl⟩,
      ⟨⟨text, htext, rfl⟩, rfl⟩, hc, hcode⟩
    exact ⟨hm, files, settings, text, c, hfiles, hs, htext, hc, hcode⟩

theorem makeDirectory_silent (e : Environment) (p : Path) : Within Session.Silent (makeDirectory e p) := by
  refine fun s => ends_change (.of_forall fun r _ => ?_)
  cases r <;> rfl

-- A task has one result in a session, whatever printer it is given.
theorem report_silent (r : Report) (script : Path) (pr : Printer) (s : Session) :
    Ends (report pr r script) s fun result t => t.output = s.output ∧
      result = if r.ok then .ok () else
        .error (.failed (.rejected script.text (Diagnostic.errors r.diagnostics).length)) := by
  refine ends_print_bind.mpr ?_
  have hs : (s.print (pr.diagnostics r.diagnostics script.text)).output = s.output := by
    rw [output_print, Printer.written_diagnostics, String.append_empty]
  split
  case isTrue  => exact Ends.pure_iff.mpr ⟨hs, rfl⟩
  case isFalse => exact Ends.throw_iff.mpr ⟨hs, rfl⟩

theorem output_printNotes (ns : List Note) (pr : Printer) (s : Session) :
    (s.print (ns.flatMap fun n => pr.debug n.text)).output = s.output := by
  rw [output_print, Printer.written_flatMap fun _ => pr.written_debug _, String.append_empty]

theorem ends_compiled {script : Path} {text : String} {o : Options} {c : Compilation}
    {Q : Except Stop (Report × String) → Session → Prop} (hc : compile text o = .ok c)
    (h : Ends (report pr c.report script) (s.print (c.notes.flatMap fun n => pr.debug n.text))
      fun r t => match r with
        | .ok _    => Ends (match c.code with
          | some code => pure (c.report, code)
          | none      => throw (.refused "no code")) t Q
        | .error e => Q (.error e) t) : Ends (compiled pr script text o) s Q := by
  have hcompile : (compileScript text o).run.run s = (.ok c, s) := by
    unfold compileScript
    rw [hc]
    rfl
  refine (Ends.bind_ok hcompile).mpr (ends_print_bind.mpr ?_)
  exact Ends.bind _ h (fun _ _ => id) fun _ _ => id

-- Either there is code, or every printer is stopped for the same cause.
theorem compiled_silent (script : Path) (text : String) (o : Options) :
    (∃ c code, compile text o = .ok c ∧ c.code = some code ∧ ∀ pr s,
        Ends (compiled pr script text o) s fun r t =>
          t.output = s.output ∧ r = .ok (c.report, code)) ∨
      ∃ stop, (∀ c, compile text o = .ok c → c.code = none) ∧ ∀ pr s,
        Ends (compiled pr script text o) s fun r t => t.output = s.output ∧ r = .error stop := by
  have ⟨_, _, _, _, _, _, hr⟩ := check_eq_ok text
  have ⟨c, hc, hreport, hcode⟩ := Report.compile_eq_ok hr o
  replace hc : compile text o = .ok c := by rw [compile, hr]; exact hc
  by_cases ho : c.report.ok
  case pos =>
    obtain ⟨code, hsome⟩ := Option.isSome_iff_exists.mp (hcode.mpr (hreport ▸ ho))
    refine .inl ⟨c, code, hc, hsome, fun pr s => ends_compiled hc ?_⟩
    refine (report_silent c.report script pr _).mono ?_
    rintro _ t ⟨hs, rfl⟩
    rw [if_pos ho, hsome]
    exact Ends.pure_iff.mpr ⟨hs.trans (output_printNotes _ pr s), rfl⟩
  case neg =>
    have hn : c.code = none := by
      rw [← Option.not_isSome_iff_eq_none, hcode, ← hreport]
      exact ho
    have hnone (c' : Compilation) (hc' : compile text o = .ok c') : c'.code = none := by
      cases hc.symm.trans hc'
      exact hn
    refine .inr ⟨.failed (.rejected script.text (Diagnostic.errors c.report.diagnostics).length),
      hnone, fun pr s => ends_compiled hc ?_⟩
    refine (report_silent c.report script pr _).mono ?_
    rintro _ t ⟨hs, rfl⟩
    rw [if_neg ho]
    exact ⟨hs.trans (output_printNotes _ pr s), rfl⟩

-- What is compiled is what the session compiles, whatever printer is used. All that comes
-- before the code, the options and the text, is found out without a printer.
theorem compileCommand_output (e : Environment) (s : Session) (script : Path)
    (flags : CompileFlags) :
    (∃ code, s.Compiles e script flags code ∧ ∀ pr,
        Ends (compileCommand e pr script flags none) s fun r t =>
          r = .ok () ∧ t.output = s.output ++ code) ∨
      ∃ stop, (∀ code, ¬ s.Compiles e script flags code) ∧ ∀ pr,
        Ends (compileCommand e pr script flags none) s fun r t =>
          r = .error stop ∧ t.output = s.output := by
  simp only [compiles_iff]
  have hoptions := options_within (makeDirectory_silent e) script flags.prog flags s
  unfold Ends at hoptions
  rcases ho : (options e script flags.prog flags).run.run s with ⟨stop | o, t⟩
  case error =>
    rw [ho] at hoptions
    refine .inr ⟨stop, ?_, fun pr => (Ends.bind_error ho).mpr ⟨rfl, hoptions⟩⟩
    rintro code ⟨_, _, _, _, _, ho', -⟩
    cases ho'
  rw [ho] at hoptions
  have hread := readScript_within (R := Session.Silent) (e := e) script t
  unfold Ends at hread
  rcases ht : (readScript e script).run.run t with ⟨stop | text, u⟩
  case error =>
    rw [ht] at hread
    refine .inr ⟨stop, ?_, fun pr => (Ends.bind_ok ho).mpr ((Ends.bind_error ht).mpr ?_)⟩
    case refine_1 =>
      rintro code ⟨_, _, _, _, _, ho', ht', -⟩
      cases ho'
      cases ht.symm.trans ht'
    case refine_2 => exact ⟨rfl, hread.trans hoptions⟩
  rw [ht] at hread
  have hsame : u.output = s.output := hread.trans hoptions
  rcases compiled_silent script text o with ⟨c, code, hc, hcode, h⟩ | ⟨stop, hnone, h⟩
  case inl =>
    refine .inl ⟨code, ⟨o, t, text, u, c, rfl, ht, hc, hcode⟩, fun pr => ?_⟩
    refine (Ends.bind_ok ho).mpr ((Ends.bind_ok ht).mpr (Ends.bind_iff.mpr ((h pr u).mono ?_)))
    rintro _ v ⟨hv, rfl⟩
    refine ends_print_bind.mpr (ends_print.mpr ⟨rfl, ?_⟩)
    rw [output_print, output_print, Printer.written_debug, Printer.written_code,
      String.append_empty, hv, hsame]
  case inr =>
    refine .inr ⟨stop, ?_, fun pr => ?_⟩
    case refine_1 =>
      rintro code ⟨_, _, _, _, c, ho', ht', hc, hcode⟩
      cases ho'
      cases ht.symm.trans ht'
      cases (hnone c hc).symm.trans hcode
    case refine_2 =>
      refine (Ends.bind_ok ho).mpr ((Ends.bind_ok ht).mpr (Ends.bind_iff.mpr ((h pr u).mono ?_)))
      rintro _ v ⟨hv, rfl⟩
      exact ⟨rfl, hv.trans hsame⟩

end Task

namespace Session

variable {e : Environment} {s : Session}

theorem output_error (text : String) (s : Session) :
    (s.print (Printer.error text)).output = s.output := by
  rw [Task.output_print, Printer.error, Printer.written_note, String.append_empty]

theorem output_logCrash (e : Environment) (cause : String) (s : Session) :
    (s.logCrash e cause).output = s.output := by
  unfold logCrash
  generalize (crashNote e cause).run.run s.files = r
  obtain ⟨_ | _, _⟩ := r <;> exact output_error _ _

-- What a task is stopped for is told to the user by other means than standard output.
theorem perform_stopped {task : Task Unit} {stop : Stop}
    (h : Ends task s fun r t => r = .error stop ∧ t.output = s.output) :
    ∃ t, s.perform e task = (stop.status, t) ∧ t.output = s.output := by
  unfold perform
  simp only [Ends, ExceptT.run, StateT.run] at h ⊢
  generalize task s = r at h ⊢
  obtain ⟨r, t⟩ := r
  obtain ⟨rfl, ht⟩ := h
  cases stop
  case failed f     => exact ⟨_, rfl, (output_error _ t).trans ht⟩
  case aborted      => exact ⟨_, rfl, ht⟩
  case refused cause => exact ⟨_, rfl, (output_logCrash e cause t).trans ht⟩

theorem perform_done {task : Task Unit} {code : String}
    (h : Ends task s fun r t => r = .ok () ∧ t.output = s.output ++ code) :
    ∃ t, s.perform e task = (0, t) ∧ t.output = s.output ++ code := by
  unfold perform
  simp only [Ends, ExceptT.run, StateT.run] at h ⊢
  generalize task s = r at h ⊢
  obtain ⟨r, t⟩ := r
  obtain ⟨rfl, ht⟩ := h
  exact ⟨t, rfl, ht⟩

-- Standard output gets the code if the run goes well, and nothing else. What the user is told
-- besides changes with the flags in front of the command, and this does not.
theorem compile_output {rest : List String} {script : String} {flags : CompileFlags}
    (hr : Invocation.read ("compile" :: rest) = .ok (.run {} (.compile script flags none)))
    (e : Environment) (s : Session) : ∃ status code,
      (status = 0 ∧ s.Compiles e (.ofText script) flags code ∨
        status ≠ 0 ∧ code = "" ∧ ∀ code, ¬ s.Compiles e (.ofText script) flags code) ∧
      ∀ gs, (∀ g ∈ gs, g ∈ Invocation.messageFlags) →
        ∃ t, s.invoke e (gs ++ "compile" :: rest) = (status, t) ∧ t.output = s.output ++ code := by
  have hinvoke {gs : List String} (hgs : ∀ g ∈ gs, g ∈ Invocation.messageFlags) :
      ∃ pr, s.invoke e (gs ++ "compile" :: rest) =
        s.perform e (Task.compileCommand e pr (.ofText script) flags none) := by
    have ⟨g, hg⟩ := Invocation.read_run hgs (by decide +kernel) rfl hr
    exact ⟨g.printer, by rw [invoke, hg]; rfl⟩
  rcases Task.compileCommand_output e s (.ofText script) flags with ⟨code, hc, h⟩ | ⟨stop, hc, h⟩
  case inl =>
    refine ⟨0, code, .inl ⟨rfl, hc⟩, fun gs hgs => ?_⟩
    have ⟨pr, hpr⟩ := hinvoke hgs
    exact hpr ▸ perform_done (h pr)
  case inr =>
    refine ⟨stop.status, "", .inr ⟨stop.status_ne_zero, rfl, hc⟩, fun gs hgs => ?_⟩
    have ⟨pr, hpr⟩ := hinvoke hgs
    rw [String.append_empty]
    exact hpr ▸ perform_stopped (h pr)

-- A script that is compiled without noise or with all of it.
def withScript : Session where
  files := {
    entries := [(["a.sh"], .file (some "# @cmd Greet\n# @flag --loud\ngreet() \x7b\n\x7d\n") 0o644)]
  }

def atHome : Environment where
  vars := [("HOME", "/home")]
  system := "Linux"
  cwd := []
  time := "0"

theorem compile_output_quiet_verbose :
    Invocation.read ["compile", "a.sh", "--no-help"] =
        .ok (.run {} (.compile "a.sh" { noHelp := true } none)) ∧
      ∃ code t u, withScript.Compiles atHome (.ofText "a.sh") { noHelp := true } code ∧
        withScript.invoke atHome ["--quiet", "compile", "a.sh", "--no-help"] = (0, t) ∧
        withScript.invoke atHome ["--json", "-v", "compile", "a.sh", "--no-help"] = (0, u) ∧
        t.output = code ∧ u.output = code := by
  have hr : Invocation.read ["compile", "a.sh", "--no-help"] =
      .ok (.run {} (.compile "a.sh" { noHelp := true } none)) :=
    Outcome.eq_ok_of_toOption (by decide +kernel)
  have hzero : (withScript.invoke atHome ["--quiet", "compile", "a.sh", "--no-help"]).1 = 0 := by
    decide +kernel
  have ⟨status, code, hcode, h⟩ := compile_output hr atHome withScript
  have ⟨t, ht, htext⟩ := h ["--quiet"] (by decide)
  have ⟨u, hu, hutext⟩ := h ["--json", "-v"] (by decide)
  have hstatus : status = 0 := (congrArg Prod.fst ht).symm.trans hzero
  subst hstatus
  have hc := (hcode.resolve_right fun hn => hn.1 rfl).2
  have hempty : withScript.output = "" := rfl
  rw [hempty, String.empty_append] at htext hutext
  exact ⟨hr, code, t, u, hc, ht, hu, htext, hutext⟩

end Session

end ShellArgs
