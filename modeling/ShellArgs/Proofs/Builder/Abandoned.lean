import ShellArgs.Proofs.Builder.Reports
import ShellArgs.Proofs.Builder.Resolution
import ShellArgs.Proofs.Builder.Scopes

-- Commands that are given up before they become nodes. Nothing of what was gathered for such a
-- command is in the tree, and nothing of it gets there later.

namespace ShellArgs

open Outcome

namespace Builder

-- A function that names no command: a part of its name is empty, the command above is unknown, or
-- a subcommand of the latter is called by the name already.
inductive Unplaced (t : Tree) (function : String) : Prop
  | empty  (h : "" ∈ nameParts function)
  | orphan (hr : t.root = .ok r) (h : ∀ e, ¬ t.Called r (nameParts function).dropLast e)
  | taken  (hr : t.root = .ok r) (h : t.Called r (nameParts function) e)

-- How a pending command is given up, by what comes `after` its directives. The `rest` of this has
-- an effect of its own.
inductive GivenUp (t : Tree) : (after rest : List Directive) → Prop
  | function {d : Directive} (hk : d.kind = .function) (h : Unplaced t d.text) :
      GivenUp t (d :: later) later
  | command {d : Directive} (hk : d.kind = .command) : GivenUp t (d :: later) (d :: later)
  | finish : GivenUp t [] []

variable {b b' : Builder} {d : Directive} {p : PendingCommand} {t : Tree}
variable {done block after rest later : List Directive}

theorem Step.inside (h : Step b d b') (hd : d.Inner) (hs : b.scope = .command p) :
    ∃ p' ds, b' = ⟨b.tree, b.diagnostics ++ ds, .command p', b.headerEnv⟩ := by
  cases h
  case refused e he        => exact ⟨p, [e], by rw [← hs]; rfl⟩
  case header hs' _ _ _ _  => cases hs.symm.trans hs'
  case pending p' _ _ _    => exact ⟨p', [], by rw [List.append_nil]⟩
  case opened hk _         => exact absurd hk hd.1
  case reopened hk _       => exact absurd hk hd.1
  case passed hk _         => exact absurd hk hd.2
  case main hk _           => exact absurd hk hd.2
  case unnamed hk _ _ _    => exact absurd hk hd.2
  case named hk _ _ _ _    => exact absurd hk hd.2

-- What is gathered for a pending command is kept with the command.
theorem foldlM_inside (s : b.tree.Sound) (hi : ∀ e ∈ block, e.Inner) (hs : b.scope = .command p) :
    ∃ p' ds, block.foldlM feed b = .ok ⟨b.tree, b.diagnostics ++ ds, .command p', b.headerEnv⟩ := by
  induction block generalizing b p
  case nil => exact ⟨p, [], by rw [List.append_nil, ← hs]; rfl⟩
  case cons e block hind =>
    have ⟨he, hi⟩ := List.forall_mem_cons.mp hi
    have ⟨b', hb', h⟩ := feed_step s e
    obtain ⟨p', ds, rfl⟩ := h.inside he hs
    have ⟨p'', ds', h⟩ := hind (b := ⟨b.tree, b.diagnostics ++ ds, .command p', b.headerEnv⟩) s hi rfl
    exact ⟨p'', ds ++ ds', by rw [List.foldlM_cons, hb', ok_bind, h, List.append_assoc]⟩

theorem feed_command (b : Builder) (hk : d.kind = .command) : ∃ ds, b.feed d =
    .ok ⟨b.tree, b.diagnostics ++ ds, .command { line := d.line, help := d.text }, b.headerEnv⟩ := by
  rw [feed, hk]
  cases hs : b.scope
  case command p => exact ⟨_, by simp only [onCommand, hs]; rfl⟩
  case header    => exact ⟨[], by simp only [onCommand, hs, List.append_nil]; rfl⟩
  case closed    => exact ⟨[], by simp only [onCommand, hs, List.append_nil]; rfl⟩

theorem onFunction_unplaced (s : b.tree.Sound) (hs : b.scope = .command p)
    (h : Unplaced b.tree d.text) :
    ∃ ds, b.onFunction d = .ok ⟨b.tree, b.diagnostics ++ ds, .closed, b.headerEnv⟩ := by
  have ⟨r, hr, hr₀, _⟩ := s.joined.root_eq_ok
  have hrm := List.mem_of_getElem? hr₀
  rw [onFunction_of_command hs, hr, ok_bind]
  by_cases he : "" ∈ nameParts d.text
  case pos => exact ⟨_, if_pos he⟩
  case neg =>
    rw [if_neg he]
    cases h
    case empty h => exact absurd h he
    case orphan hr' h =>
      cases hr.symm.trans hr'
      have ⟨found, hd, _⟩ := descend_eq_ok s hrm [] (nameParts d.text).dropLast
      rw [hd, ok_bind]
      cases found
      case error => exact ⟨_, rfl⟩
      case ok    => exact absurd ((Tree.Called.descend_eq_ok_iff s hrm []).mp hd) (h _)
    case taken hr' h =>
      cases hr.symm.trans hr'
      rw [← dropLast_nameParts] at h
      have ⟨parent, hup, hb, hw⟩ := h.of_concat
      have ⟨found, hd, hm⟩ := descend_eq_ok s hrm [] (nameParts d.text).dropLast
      cases hd.symm.trans ((Tree.Called.descend_eq_ok_iff s hrm []).mpr hup)
      have hp := hm parent rfl
      have hfind := s.findChild_eq_ok (w := (nameParts d.text).getLastD "") hp
      have ⟨path, hpath⟩ := s.joined.path_eq_ok hp
      rw [hd, ok_bind]
      refine ⟨[(Problem.repeatedCommand (" ".intercalate
        (path ++ [(nameParts d.text).getLastD ""]))).located p.line], ?_⟩
      simp only [place, hfind, (s.find?_callNames_iff hp).mpr ⟨hb, hw⟩, hpath, ok_bind,
        Option.isSome_some, if_true]
      rfl

-- Two builders that differ in nothing but their reports build the same.
theorem exists_foldlM_feed (s : t.Sound) (sc : Scope) (env : List EnvBinding) (later : List Directive) :
    ∃ b : Builder, b.tree.Sound ∧
      ∀ reports, later.foldlM feed ⟨t, reports, sc, env⟩ = .ok (b.recalling reports) := by
  have ⟨b, hb, s'⟩ : ∃ b, later.foldlM feed (⟨t, [], sc, env⟩ : Builder) = .ok b ∧ b.tree.Sound :=
    foldlM_ok (fun _ b => b.tree.Sound) s fun _ d b s =>
      have ⟨b', hb', h⟩ := feed_step s d
      ⟨b', hb', h.sound s⟩
  refine ⟨b, s', fun reports => ?_⟩
  have hstart : (⟨t, reports, sc, env⟩ : Builder) = recalling reports ⟨t, [], sc, env⟩ := by
    rw [recalling, List.append_nil]
  rw [hstart, foldlM_recalling, hb, map_ok]

-- What is reported has no part in the tree either.
theorem exists_finish (s : b.tree.Sound) (ht : b'.tree = b.tree) (he : b'.headerEnv = b.headerEnv) :
    ∃ t ds ds', b.finish = .ok (t, ds) ∧ b'.finish = .ok (t, ds') := by
  have ⟨r, hr, _⟩ := s.root
  have hfinish := finish_eq_ok (ht.symm ▸ s) (ht.symm ▸ hr)
  rw [ht, he] at hfinish
  exact ⟨_, _, _, finish_eq_ok s hr, hfinish⟩

theorem foldlM_take_one (h : b.feed d = .ok b') : ((d :: later).take 1).foldlM feed b = .ok b' := by
  rw [List.take_succ_cons, List.take_zero, List.foldlM_cons, h]
  rfl

-- Where a pending command is given up, nothing counts but the tree and the variables of the header.
theorem GivenUp.foldlM_feed (hg : GivenUp b.tree after rest) (s : b.tree.Sound)
    (hs : b.scope = .command p) (reports : List Diagnostic) :
    (∃ b', (after.take 1).foldlM feed b = .ok b' ∧ b'.tree = b.tree) ∧
    ∃ b₁ b₂, after.foldlM feed b = .ok b₁ ∧
      rest.foldlM feed ⟨b.tree, reports, .closed, b.headerEnv⟩ = .ok b₂ ∧
      b₁.tree.Sound ∧ b₂.tree = b₁.tree ∧ b₂.headerEnv = b₁.headerEnv := by
  cases hg
  case function d hk hu =>
    obtain ⟨ds, hd⟩ := onFunction_unplaced s hs hu
    have hfeed : b.feed d = .ok ⟨b.tree, b.diagnostics ++ ds, .closed, b.headerEnv⟩ := by
      rw [feed, hk]
      exact hd
    obtain ⟨c, sc, hc⟩ := exists_foldlM_feed s .closed b.headerEnv rest
    refine ⟨⟨⟨b.tree, b.diagnostics ++ ds, .closed, b.headerEnv⟩, ?_, rfl⟩,
      c.recalling (b.diagnostics ++ ds), c.recalling reports, ?_, hc _, sc, rfl, rfl⟩
    case refine_1 => exact foldlM_take_one hfeed
    case refine_2 => rw [List.foldlM_cons, hfeed, ok_bind, hc]
  case command later d hk =>
    obtain ⟨ds, hfeed⟩ := feed_command b hk
    obtain ⟨es, hfeed'⟩ := feed_command ⟨b.tree, reports, .closed, b.headerEnv⟩ hk
    let opened : Scope := .command { line := d.line, help := d.text }
    obtain ⟨c, sc, hc⟩ := exists_foldlM_feed s opened b.headerEnv later
    refine ⟨⟨⟨b.tree, b.diagnostics ++ ds, opened, b.headerEnv⟩, ?_, rfl⟩,
      c.recalling (b.diagnostics ++ ds), c.recalling (reports ++ es), ?_, ?_, sc, rfl, rfl⟩
    case refine_1 => exact foldlM_take_one hfeed
    case refine_2 => rw [List.foldlM_cons, hfeed, ok_bind, hc]
    case refine_3 => rw [List.foldlM_cons, hfeed', ok_bind, hc]
  case finish => exact ⟨⟨b, rfl, rfl⟩, b, _, rfl, rfl, s, rfl, rfl⟩

-- A command that is given up leaves the tree as it was, and what comes later has the same effect as
-- if nothing had been said of the command.
theorem foldlM_feed_givenUp (h : done.foldlM feed {} = .ok b) (hd : d.kind = .command)
    (hi : ∀ e ∈ block, e.Inner) (hg : GivenUp b.tree after rest) :
    (∃ b', (d :: block ++ after.take 1).foldlM feed b = .ok b' ∧ b'.tree = b.tree) ∧
    ∃ b₁ b₂ t ds₁ ds₂, (d :: block ++ after).foldlM feed b = .ok b₁ ∧
      rest.foldlM feed { b with scope := .closed } = .ok b₂ ∧ b₂.tree = b₁.tree ∧
      b₁.finish = .ok (t, ds₁) ∧ b₂.finish = .ok (t, ds₂) := by
  have ⟨b', hb', s, _⟩ := foldlM_feed (fun _ _ => True) trivial (fun _ _ _ => trivial) done
  cases h.symm.trans hb'
  have ⟨ds, hopened⟩ := feed_command b hd
  let opened : Builder :=
    ⟨b.tree, b.diagnostics ++ ds, .command { line := d.line, help := d.text }, b.headerEnv⟩
  have ⟨p, ds', hblock⟩ := foldlM_inside (b := opened) s hi rfl
  let gathered : Builder := ⟨b.tree, opened.diagnostics ++ ds', .command p, b.headerEnv⟩
  have hgathered (more : List Directive) :
      (d :: block ++ more).foldlM feed b = more.foldlM feed gathered := by
    rw [List.foldlM_append, List.foldlM_cons, hopened, ok_bind, hblock, ok_bind]
  have ⟨hnow, b₁, b₂, h₁, h₂, s₁, ht, he⟩ :=
    GivenUp.foldlM_feed (b := gathered) hg s rfl b.diagnostics
  have ⟨t, ds₁, ds₂, hf₁, hf₂⟩ := exists_finish s₁ ht he
  rw [hgathered, hgathered]
  exact ⟨hnow, b₁, b₂, t, ds₁, ds₂, h₁, h₂, ht, hf₁, hf₂⟩

-- A script with a command `start` that is also called by `s`, and then one that takes the latter
-- name for another command.
def starting : List Directive :=
  [⟨.command, "Start", 1⟩, ⟨.aliases, "s", 2⟩, ⟨.function, "start", 3⟩]

def started : Builder where
  tree := ⟨[{ index := 0, children := [("start", 1)] },
    { index := 1, name := "start", aliases := ["s"], help := "Start", parent := some 0,
      func := some "start", line := 1 }]⟩
  scope := .closed

def stop : Directive := ⟨.command, "Stop", 4⟩

def stopping : List Directive :=
  [⟨.flag, "--force", 5⟩, ⟨.aliases, "halt", 6⟩, ⟨.env, "FORCE force", 7⟩, ⟨.before, "check", 8⟩]

def clashing : Directive := ⟨.function, "s", 9⟩

def ending : List Directive := [⟨.function, "main", 10⟩]

theorem foldlM_feed_givenUp_alias :
    starting.foldlM feed {} = .ok started ∧ stop.kind = .command ∧ (∀ e ∈ stopping, e.Inner) ∧
    GivenUp started.tree (clashing :: ending) ending ∧
    (∃ b', (stop :: stopping ++ [clashing]).foldlM feed started = .ok b' ∧
      b'.tree = started.tree) ∧
    ∃ b₁ b₂ t ds₁ ds₂, (stop :: stopping ++ clashing :: ending).foldlM feed started = .ok b₁ ∧
      ending.foldlM feed started = .ok b₂ ∧ b₂.tree = b₁.tree ∧
      b₁.finish = .ok (t, ds₁) ∧ b₂.finish = .ok (t, ds₂) := by
  have hstart : starting.foldlM feed {} = .ok started := by decide +kernel
  have hinner : ∀ e ∈ stopping, e.Inner := by simp [stopping, Directive.Inner]
  have hparts : nameParts "s" = ["s"] := by decide
  have htaken : Unplaced started.tree clashing.text := by
    refine .taken rfl (e := started.tree.nodes[1]) ?_
    rw [clashing, hparts]
    exact .cons ⟨by decide, rfl⟩ (by decide) .nil
  have hg : GivenUp started.tree (clashing :: ending) ending := .function rfl htaken
  exact ⟨hstart, rfl, hinner, hg, foldlM_feed_givenUp hstart rfl hinner hg⟩

end Builder

end ShellArgs
