import ShellArgs.Proofs.Check
import ShellArgs.Proofs.Completion.Moves
import ShellArgs.Proofs.Matching

-- Which words lead to a command. The names on the path of a command do, and so do aliases in
-- place of names, as long as none of them is taken for an option.

namespace ShellArgs.Completion

open Outcome

namespace Cursor

variable {t : Tree} {s : Cursor} {c d : Command} {w : String} {p : Param}

-- How many words have been passed as positionals or as the end of the options.
def passed (s : Cursor) : Nat :=
  s.positionals + s.optionsEnded.toNat

@[simp] theorem passed_collect : s.collect.passed = s.passed + 1 := by
  simp only [passed, collect]
  omega

@[simp] theorem passed_dashed : (s.dashed w).passed = s.passed := by
  simp only [passed, positionals_dashed, optionsEnded_dashed]

-- A word can only lead one level down, and only if it has no dash. Other words count once at most.
theorem step_command (h : t.Sound) (hm : s.command ∈ t.nodes) (w : String) :
    ∃ s', step t s w = .ok s' ∧ ((s'.command = s.command ∧ s'.passed ≤ s.passed + 1) ∨
      (isDashed w = false ∧ t.Below s.command s'.command)) := by
  have hf := h.findChild_eq_ok (w := w) hm
  obtain ⟨s', m⟩ := exists_moves ⟨_, hf⟩
  refine ⟨s', step_eq_ok_iff.mpr m, ?_⟩
  cases m
  case value      => exact .inl ⟨rfl, Nat.le_succ _⟩
  case ended ho _ => exact .inl ⟨rfl, by simp [passed, ho.options]⟩
  case dashed     => exact .inl ⟨command_dashed, by simp⟩
  case collected  => exact .inl ⟨rfl, by simp⟩
  case called hd _ hc =>
    have hc := Except.ok.inj (hf.symm.trans hc)
    exact .inr ⟨hd, ((h.find?_callNames_iff hm).mp hc).1⟩

-- At the start of a command, a word that calls a subcommand leads to it.
theorem step_subcommand (h : t.Sound) (hm : c ∈ t.nodes) (hb : t.Below c d) (hw : w ∈ d.callNames)
    (hd : isDashed w = false) : step t { command := c } w = .ok { command := d } := by
  have hf := (h.find?_callNames_iff hm).mpr ⟨hb, hw⟩
  exact step_eq_ok_iff.mpr (.called ⟨rfl, rfl⟩ hd rfl (hf ▸ h.findChild_eq_ok hm))

end Cursor

variable {t : Tree} {c : Command} {way : List Command} {ws : List String}

-- Words call commands, one after the other.
def Calls (ws : List String) (way : List Command) : Prop :=
  List.Forall₂ (fun w d => w ∈ d.callNames) ws way

theorem replay_append (us vs : List String) :
    replay t (us ++ vs) = (do vs.foldlM (Cursor.step t) (← replay t us)) := by
  cases hr : t.root <;> simp [replay, hr, List.foldlM_append]

theorem replay_eq_ok_of_calls (h : t.Sound) (hw : t.Way way c) (hc : Calls ws way)
    (hd : ∀ w ∈ ws, Cursor.isDashed w = false) : replay t ws = .ok { command := c } := by
  induction hw generalizing ws
  case root hr =>
    cases hc
    simp [replay, hr]
  case child hw hb hi =>
    have ⟨us, w, he, hus, hwd⟩ := Matching.of_forall₂_concat_right hc
    subst he
    have hr := hi hus fun v hv => hd v (List.mem_append_left _ hv)
    have hdw := hd w (List.mem_append_right _ List.mem_cons_self)
    simp [replay_append, hr, Cursor.step_subcommand h hw.mem_nodes hb hwd hdw]

-- The words without dashes bound how far down the words lead.
theorem replay_eq_ok (h : t.Sound) (ws : List String) :
    ∃ s way, replay t ws = .ok s ∧ t.Way way s.command ∧
      way.length ≤ ws.countP (!Cursor.isDashed ·) := by
  have ⟨r, hr, _⟩ := h.joined.root_eq_ok
  let P (done : List String) (s : Cursor) : Prop :=
    ∃ way, t.Way way s.command ∧ way.length ≤ done.countP (!Cursor.isDashed ·)
  have hp : P [] { command := r } := ⟨[], .root hr, Nat.zero_le _⟩
  have hf : ∀ done w s, P done s → ∃ s', Cursor.step t s w = .ok s' ∧ P (done ++ [w]) s' := by
    rintro done w s ⟨way, hw, hl⟩
    have ⟨s', hs', hc⟩ := Cursor.step_command h hw.mem_nodes w
    refine ⟨s', hs', ?_⟩
    cases hc
    case inl hc =>
      refine ⟨way, hc.1 ▸ hw, ?_⟩
      rw [List.countP_append]
      omega
    case inr hc =>
      refine ⟨way ++ [s'.command], .child hw hc.2, ?_⟩
      rw [List.countP_append, List.length_append]
      simp [hc.1, hl]
  have ⟨s, hs, way, hw, hl⟩ : ∃ s, ws.foldlM (Cursor.step t) { command := r } = .ok s ∧ P ws s :=
    foldlM_ok P hp hf
  exact ⟨s, way, by simp [replay, hr, hs], hw, hl⟩

-- Words that call the commands on the way to a command lead there if and only if none of them
-- is taken for an option.
theorem replay_calls {text : String} {r : Report} (h : check text = .ok r) (hc : c ∈ r.tree.nodes) :
    ∃ way, r.tree.path c = .ok (way.map (·.name)) ∧ r.tree.Way way c ∧
      ∀ ws, Calls ws way → ∃ s, replay r.tree ws = .ok s ∧
        (s.command = c ↔ ∀ w ∈ ws, Cursor.isDashed w = false) := by
  have hs := sound_of_check h
  have ⟨way, hw⟩ := hs.exists_way hc
  refine ⟨way, hw.path_eq_ok hs.joined, hw, fun ws hws => ?_⟩
  have ⟨s, way', hr, hw', hl⟩ := replay_eq_ok hs ws
  refine ⟨s, hr, ?_, ?_⟩
  case refine_1 =>
    intro he
    have hway : way' = way := (he ▸ hw').unique hs.joined hw
    have hcount : ws.countP (!Cursor.isDashed ·) = ws.length := by
      have hlen := List.Forall₂.length_eq hws
      have := List.countP_le_length (p := (!Cursor.isDashed ·)) (l := ws)
      rw [hway] at hl
      omega
    simpa using List.countP_eq_length.mp hcount
  case refine_2 =>
    intro hd
    cases hr.symm.trans (replay_eq_ok_of_calls hs hw hws hd)
    rfl

-- An alias with a dash is accepted, but only the name of its command leads anywhere.
theorem replay_calls_dashed_alias :
    ∃ r c, check "# @cmd Start\n# @alias -s\nstart() \x7b :; \x7d\n" = .ok r ∧ r.ok ∧
      c ∈ r.tree.nodes ∧ r.tree.path c = .ok ["start"] ∧ c.callNames = ["start", "-s"] ∧
      (∃ s, replay r.tree ["start"] = .ok s ∧ s.command = c) ∧
      (∃ s, replay r.tree ["-s"] = .ok s ∧ s.command ≠ c) := by
  let root : Command := { index := 0, children := [("start", 1)] }
  let c : Command := {
    index := 1
    name := "start"
    aliases := ["-s"]
    help := "Start"
    parent := some 0
    func := some "start"
    line := 1
  }
  let r : Report := { tree := ⟨[root, c]⟩, diagnostics := [], directives := 3 }
  have h : check "# @cmd Start\n# @alias -s\nstart() \x7b :; \x7d\n" = .ok r := by decide +kernel
  have hc : c ∈ r.tree.nodes := by simp [r]
  have hp : r.tree.path c = .ok ["start"] := by decide
  have ⟨way, hpath, hw, hws⟩ := replay_calls h hc
  have hway : way = [c] := by
    have hlen : way.length = 1 := by
      have := Except.ok.inj (hp.symm.trans hpath)
      simpa using congrArg List.length this.symm
    cases hw
    case root       => cases hlen
    case child hw _ =>
      have := List.length_eq_zero_iff.mp (by simpa using hlen)
      rw [this, List.nil_append]
  subst hway
  have ⟨s, hs, hi⟩ := hws ["start"] (.cons (by decide) .nil)
  have ⟨s', hs', hi'⟩ := hws ["-s"] (.cons (by decide) .nil)
  have hne : s'.command ≠ c := fun he => absurd (hi'.mp he "-s" List.mem_cons_self) (by decide)
  exact ⟨r, c, h, rfl, hc, hp, rfl, ⟨s, hs, hi.mpr (by decide)⟩, s', hs', hne⟩

end ShellArgs.Completion
