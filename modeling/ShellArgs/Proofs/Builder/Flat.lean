import ShellArgs.Proofs.Builder.Run
import ShellArgs.Proofs.Check
import ShellArgs.Proofs.Directive.Accounting
import ShellArgs.Proofs.Shell.Flat
import ShellArgs.Proofs.Text.Lines
import ShellArgs.Tree.Builder

-- What a script says of its commands stands on single lines, but for help texts. Nothing that a
-- builder makes of it spreads over lines, and the functions that it is to call have names that
-- the shell can read.

namespace ShellArgs

open Outcome Text

-- What is found on single lines of a script.
structure Directive.Flat (d : Directive) : Prop where
  first   : Text.Flat (d.text.toList.takeWhile (· != '\n'))
  oneLine : d.kind.isContinued = false → OneLine d.text
  called  : d.kind = .before ∨ d.kind = .after ∨ d.kind = .function →
    Shell.isFunctionName d.text.toList

structure Command.Flat (c : Command) : Prop where
  name    : OneLine c.name
  aliases : ∀ a ∈ c.aliases, OneLine a
  version : ∀ v, c.version = some v → OneLine v
  func    : ∀ f, c.func = some f → Shell.isFunctionName f.toList
  before  : ∀ f, c.before = some f → Shell.isFunctionName f.toList
  after   : ∀ f, c.after = some f → Shell.isFunctionName f.toList
  params  : ∀ p ∈ c.params, p.Flat

structure PendingCommand.Flat (p : PendingCommand) : Prop where
  aliases : ∀ a ∈ p.aliases, OneLine a.1
  env     : ∀ e ∈ p.env, OneLine e.envVar
  before  : ∀ f, p.before = some f → Shell.isFunctionName f.toList
  after   : ∀ f, p.after = some f → Shell.isFunctionName f.toList
  params  : ∀ q ∈ p.params, q.Flat

def Tree.Flat (t : Tree) : Prop :=
  ∀ c ∈ t.nodes, c.Flat

structure Builder.Flat (b : Builder) : Prop where
  tree      : b.tree.Flat
  pending   : ∀ p, b.scope = .command p → p.Flat
  headerEnv : ∀ e ∈ b.headerEnv, OneLine e.envVar

namespace Directive

variable {line n : Nat} {l : List Char} {ls after : List (List Char)} {e : Event} {d : Directive}
variable {m : Marked} {s : String}

theorem exists_eventOf?_of_mem_events (h : e ∈ events line n ls) :
    ∃ line l after, l ∈ ls ∧ eventOf? line l after = some e := by
  induction ls generalizing line n
  case nil => cases n <;> cases h
  case cons l ls hi =>
    have hrest {line n : Nat} (h : e ∈ events line n ls) :
        ∃ line m after, m ∈ l :: ls ∧ eventOf? line m after = some e :=
      have ⟨line, m, after, hm, he⟩ := hi h
      ⟨line, m, after, List.mem_cons_of_mem l hm, he⟩
    cases n
    case succ n => exact hrest h
    case zero =>
      rw [events_zero, List.mem_append, Option.mem_toList] at h
      cases h
      case inl h => exact ⟨line, l, ls, List.mem_cons_self, h⟩
      case inr h => exact hrest h

theorem flat_of_marked? (h : marked? l = some m) (hl : Text.Flat l) : Text.Flat m.rest := by
  unfold marked? at h
  simp only at h
  split at h
  case h_2 => cases h
  case h_1 s _ hs =>
    cases h
    intro c hc
    have hc : c ∈ '@' :: s := List.mem_cons_of_mem _ ((List.dropWhile_sublist _).subset hc)
    rw [← hs] at hc
    exact hl c ((List.dropWhile_sublist _).subset ((List.dropWhile_sublist _).subset hc))

theorem takeWhile_continued (h : OneLine s) :
    (continued s after).toList.takeWhile (· != '\n') = s.toList := by
  have hs : ∀ c ∈ s.toList, (c != '\n') = true := by
    intro c hc
    rw [bne_iff_ne]
    rintro rfl
    exact absurd (h _ hc) (by decide)
  unfold continued
  simp only
  split
  case isTrue  => exact List.takeWhile_eq_self_iff.mpr hs
  case isFalse =>
    rw [String.toList_append, String.toList_append, List.append_assoc]
    exact takeWhile_run hs (head?_cons (by decide))

theorem flat_of_mem_lex {script : String} (h : d ∈ (lex script).1) : d.Flat := by
  obtain ⟨e, he, hd⟩ := List.mem_filterMap.mp h
  obtain ⟨line, l, after, hl, he⟩ := exists_eventOf?_of_mem_events he
  have hflat : Text.Flat l := flat_of_mem_lines hl
  unfold eventOf? at he
  split at he
  case h_2 =>
    obtain ⟨name, hname, rfl⟩ := Option.map_eq_some_iff.mp he
    cases hd
    have hfunction : Shell.isFunctionName (String.ofList name).toList := by
      rw [String.toList_ofList]
      cases function?_eq_some_iff.mp hname <;> assumption
    have hone := Shell.oneLine_of_isFunctionName hfunction
    exact ⟨fun c hc => hone c ((List.takeWhile_sublist _).subset hc), fun _ => hone,
      fun _ => hfunction⟩
  case h_1 m hm =>
    split at he
    case h_1 => cases he; cases hd
    case h_2 k s hr =>
      cases he
      cases hd
      obtain ⟨htag, rfl, hfunction⟩ := of_readMarked hr
      have hone : OneLine (String.ofList (Text.trim m.rest)) :=
        oneLine_ofList.mpr fun c hc => flat_of_marked? hm hflat c (mem_of_mem_trim hc)
      cases hc : k.isContinued
      case true =>
        refine ⟨?_, fun h => absurd h (by simp [hc]), ?_⟩
        · simpa [takeWhile_continued hone] using hone
        · rintro (rfl | rfl | rfl) <;> cases hc
      case false =>
        refine ⟨fun c hc => hone c ((List.takeWhile_sublist _).subset hc), fun _ => hone, ?_⟩
        rintro (rfl | rfl | rfl)
        case inl     => exact hfunction (.inl rfl)
        case inr.inl => exact hfunction (.inr rfl)
        case inr.inr => exact absurd rfl (ne_function_of_ofTag? htag)

end Directive

namespace Tree.Flat

variable {t : Tree} {c : Command}

theorem empty : Tree.empty.Flat := by
  intro c hc
  cases List.mem_singleton.mp hc
  exact ⟨by decide, by simp, by simp, by simp, by simp, by simp, by simp⟩

theorem modify (h : t.Flat) {f : Command → Command} (hf : ∀ c, c.Flat → (f c).Flat) (p : Nat) :
    (t.modify p f).Flat :=
  forall_mem_modify h hf p

theorem grown (h : t.Flat) (hc : c.Flat) (p : Nat) : (t.grown p c).Flat :=
  forall_mem_grown h (fun _ _ hd => { hd with }) hc p

end Tree.Flat

namespace Builder

variable {es : List EnvBinding} {ps : List Param}

theorem flat_bindEnv (hes : ∀ e ∈ es, OneLine e.envVar) (hps : ∀ p ∈ ps, p.Flat) :
    ∀ p ∈ (bindEnv es ps).1, p.Flat :=
  forall_mem_bindEnv
    (fun e he _ hp => { hp with envVar := fun _ h => Option.some.inj h ▸ hes e he }) hps

theorem oneLine_of_envBinding? {text var target : String}
    (h : envBinding? text = some (var, target)) : OneLine var := by
  unfold envBinding? at h
  simp only at h
  split at h
  case isFalse => cases h
  case isTrue =>
    cases h
    exact oneLine_ofList.mpr (Shell.flat_of_isNameChar fun c hc => List.mem_takeWhile_imp hc)

theorem oneLine_nameParts {function name : String} (h : Shell.isFunctionName function.toList)
    (hn : name ∈ nameParts function) : OneLine name := by
  obtain ⟨l, hl, rfl⟩ := List.mem_map.mp hn
  exact oneLine_ofList.mpr (flat_of_mem_splitOnDouble (Shell.oneLine_of_isFunctionName h) hl)

end Builder

namespace Directive.Flat

variable {d : Directive}

theorem called_of_some (hd : d.Flat) (hk : d.kind = .before ∨ d.kind = .after ∨ d.kind = .function) :
    ∀ f, some d.text = some f → Shell.isFunctionName f.toList :=
  fun _ h => Option.some.inj h ▸ hd.called hk

theorem altered {c c' : Command} (hd : d.Flat) (h : d.Alters c c') (hc : c.Flat) : c'.Flat := by
  cases h
  case help | author => exact { hc with }
  case version hk =>
    have hv := hd.oneLine (by rw [hk]; rfl)
    exact { hc with version := fun _ h => Option.some.inj h ▸ hv }
  case param k hk hr =>
    have hp := Descriptor.flat_of_read hr hd.first
    exact { hc with params := Builder.forall_mem_insert hp hc.params }
  case before hk _ => exact { hc with before := hd.called_of_some (.inl hk) }
  case after hk _  => exact { hc with after := hd.called_of_some (.inr (.inl hk)) }

theorem extended {p p' : PendingCommand} (hd : d.Flat) (h : d.Extends p p') (hp : p.Flat) :
    p'.Flat := by
  cases h
  case help => exact { hp with }
  case aliases hk =>
    refine { hp with aliases := List.forall_mem_append.mpr ⟨hp.aliases, fun a ha => ?_⟩ }
    obtain ⟨s, hs, rfl⟩ := List.mem_map.mp ha
    obtain ⟨l, hl, rfl⟩ := List.mem_map.mp hs
    refine oneLine_ofList.mpr fun c hc => ?_
    exact flat_of_mem_splitOn (by decide) (hd.oneLine (by rw [hk]; rfl)) hl c (mem_of_mem_trim hc)
  case param k hk hr =>
    have hq := Descriptor.flat_of_read hr hd.first
    exact { hp with params := Builder.forall_mem_insert hq hp.params }
  case env hk he =>
    have hv := Builder.oneLine_of_envBinding? he
    exact { hp with
      env := List.forall_mem_append.mpr ⟨hp.env, List.forall_mem_singleton.mpr hv⟩ }
  case before hk _ => exact { hp with before := hd.called_of_some (.inl hk) }
  case after hk _  => exact { hp with after := hd.called_of_some (.inr (.inl hk)) }

end Directive.Flat

namespace Builder

variable {b b' : Builder} {d : Directive} {p : PendingCommand} {c : Command}

theorem Bound.flat {function : String} {ds : List Diagnostic} (hc : Bound p function c ds)
    (hx : Supplied p c ds) (hp : p.Flat) (hn : OneLine c.name)
    (hf : Shell.isFunctionName function.toList) : c.Flat where
  name    := hn
  aliases w hw :=
    have ⟨a, ha, he⟩ := hx.aliases w hw
    he ▸ hp.aliases a ha
  version := by simp [hx.version]
  func    := by rw [hc.func]; rintro _ ⟨⟩; exact hf
  before  := hc.before ▸ hp.before
  after   := hc.after ▸ hp.after
  params  := hc.params ▸ flat_bindEnv hp.env hp.params

namespace Flat

theorem pend (h : b.Flat) (hp : p.Flat) : Builder.Flat { b with scope := .command p } :=
  { h with pending := by rintro _ ⟨⟩; exact hp }

theorem effect (h : b.Flat) (hd : d.Flat) (he : Effect b d b') : b'.Flat := by
  have hopen : PendingCommand.Flat { line := d.line, help := d.text } :=
    ⟨by simp, by simp, by simp, by simp, by simp⟩
  cases he
  case refused            => exact { h with }
  case unnamed | repeated => exact { h with pending := nofun }
  case passed             => exact h
  case root hr ha _ _ =>
    have hc := hd.altered ha (h.tree _ (List.mem_of_getElem? hr))
    exact { h with tree := h.tree.modify (fun _ _ => hc) 0 }
  case headerEnv he =>
    have hv := oneLine_of_envBinding? he
    exact { h with
      headerEnv := List.forall_mem_append.mpr ⟨h.headerEnv, List.forall_mem_singleton.mpr hv⟩ }
  case pending hs he => exact h.pend (hd.extended he (h.pending _ hs))
  case opened           => exact h.pend hopen
  case reopened         => exact pend { h with } hopen
  case main hk _ =>
    have hroot (c : Command) (hc : c.Flat) : Command.Flat { c with func := some d.text } :=
      { hc with func := hd.called_of_some (.inr (.inr hk)) }
    exact { h with tree := h.tree.modify hroot 0 }
  case named hk hs hl hf hc hx =>
    have hfunc := hd.called (.inr (.inr hk))
    have hn : OneLine _ := hl.name ▸ oneLine_getLastD (fun _ => oneLine_nameParts hfunc) (by decide)
    exact ⟨h.tree.grown (hc.flat hx (h.pending _ hs) hn hfunc) _, nofun, h.headerEnv⟩

theorem finish {t : Tree} {ds : List Diagnostic} (h : b.Flat) (hs : b.tree.Sound)
    (hb : b.finish = .ok (t, ds)) : t.Flat := by
  have ⟨r, hr, _⟩ := hs.root
  have hparams := flat_bindEnv h.headerEnv (h.tree r (List.mem_of_getElem? hr)).params
  rw [finish_eq_ok hs hr] at hb
  cases hb
  let bound : Command := { r with params := (bindEnv b.headerEnv r.params).1 }
  have hbound : bound.Flat := { h.tree r (List.mem_of_getElem? hr) with params := hparams }
  exact h.tree.modify (fun _ _ => hbound) 0

end Flat

end Builder

theorem Tree.flat_ofDirectives {ds : List Directive} {t : Tree} {problems : List Diagnostic}
    (hds : ∀ d ∈ ds, d.Flat) (h : ofDirectives ds = .ok (t, problems)) : t.Flat := by
  have ⟨b, hb, hs, hf⟩ := Builder.foldlM_effect (fun done b => (∀ d ∈ done, d.Flat) → b.Flat)
    (fun _ => ⟨.empty, nofun, nofun⟩)
    (fun _ he hi hds =>
      have ⟨hdone, hd⟩ := List.forall_mem_append.mp hds
      (hi hdone).effect (List.forall_mem_singleton.mp hd) he) ds
  rw [ofDirectives, hb] at h
  exact (hf hds).finish hs h

-- Every command of a script that is checked is called by single lines.
theorem flat_of_check {text : String} {r : Report} (h : check text = .ok r) : r.tree.Flat := by
  have ⟨_, _, _, ht, _, _, hr⟩ := check_eq_ok text
  cases h.symm.trans hr
  exact Tree.flat_ofDirectives (fun _ hd => Directive.flat_of_mem_lex hd) ht

end ShellArgs
