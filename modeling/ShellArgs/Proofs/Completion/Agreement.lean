import ShellArgs.Proofs.Completion.Given

-- A cursor and a routine go through the same words. They come to the same end, unless the
-- routine finds something in a cluster that the cursor does not look for.

namespace ShellArgs

open Outcome Routine

-- What is left of a cluster is a word of its own to a routine. It can end the options, and it
-- can be a form that is too long for a cluster.
def Command.hides (c : Command) (rest : String) : Bool :=
  rest == "--" || c.options.any fun p => p.forms.any fun f =>
    2 < f.length && (rest == f || Text.startsWith rest (f ++ "="))

-- Nothing is hidden in the rest of a cluster.
def Routine.Parsing.Scanned (t : Tree) (o : Options) (s : Parsing) : Prop :=
  ∀ rest ∈ s.requeued? t o, s.command.hides rest = false

instance {t : Tree} {o : Options} {s : Parsing} : Decidable (s.Scanned t o) :=
  inferInstanceAs (Decidable (∀ rest ∈ s.requeued? t o, s.command.hides rest = false))

namespace Completion

-- A cursor that stands where a routine does.
structure Agrees (k : Cursor) (s : Parsing) : Prop where
  command      : k.command = s.command
  used         : ∀ n, n ∈ k.used ↔ n ∈ s.given
  positionals  : k.positionals = s.collected.length
  awaited      : k.awaited = none
  optionsEnded : k.optionsEnded = s.ended

structure Tracks (t : Tree) (k : Cursor) (s : Parsing) : Prop extends Agrees k s where
  mem   : s.command ∈ t.nodes
  ended : s.ended → s.words = []

section Hides

variable {c : Command} {p : Param} {f rest : String}

theorem ne_of_hides (h : c.hides rest = false) : rest ≠ "--" := by
  rintro rfl
  simp [Command.hides] at h

theorem length_le_of_hides (h : c.hides rest = false) (hp : p ∈ c.options) (hf : f ∈ p.forms)
    (hr : rest = f ∨ Text.startsWith rest (f ++ "=")) : f.length ≤ 2 := by
  refine Nat.le_of_not_lt fun hl => ?_
  have : c.hides rest = true := by
    simp only [Command.hides, Bool.or_eq_true, List.any_eq_true, Bool.and_eq_true, decide_eq_true_eq,
      beq_iff_eq]
    exact .inr ⟨p, hp, f, hf, hl, hr⟩
  simp [h] at this

end Hides

section Cluster

variable {t : Tree} {o : Options} {k : Cursor} {cs : List Command} {act : Action} {c : Char}
variable {rest : String} {zs : List Char}

-- If nothing is hidden in the rest of a cluster, it does not matter whether it is a word.
theorem dashed_rest (hf : k.command.Formed) (hh : k.command.hides rest = false)
    (hr : rest.toList = '-' :: c :: zs) (hm : Meets k.command cs o rest act)
    (ha : ∃ s ws s', Parsing.act? s rest ws act = some s') : k.dashed rest = k.cluster (c :: zs) := by
  have hshort : ∀ {p f}, p ∈ k.command.options → f ∈ p.forms →
      rest = f ∨ Text.startsWith rest (f ++ "=") → ∃ d, f = String.ofList ['-', d] := by
    intro p f hp hfp hw
    obtain ⟨d, _, he⟩ := (hf.isForm hp hfp).eq_short (length_le_of_hides hh hp hfp hw)
    exact ⟨d, he⟩
  have hform : ∀ {p}, p ∈ k.command.options → rest ∈ p.forms → k.dashed rest = k.cluster (c :: zs) := by
    intro p hp hfp
    obtain ⟨d, he⟩ := hshort hp hfp (.inl rfl)
    obtain ⟨rfl, rfl⟩ : c = d ∧ zs = [] := by simpa [he, eq_comm] using hr
    rw [Cursor.dashed_form hf hp hfp, Cursor.cluster_singleton (he ▸ hf.find hp hfp)]
  cases hm
  case flag hp hk hfp   => exact hform hp hfp
  case values hp hk hfp => exact hform hp hfp
  case attached p f hp hk hfp hw =>
    obtain ⟨d, he⟩ := hshort hp hfp (.inr hw)
    obtain ⟨v, hv⟩ := Text.startsWith_iff.mp hw
    obtain ⟨rfl, rfl⟩ : d = c ∧ '=' :: v = zs := by simpa [he, hr] using hv
    rw [Cursor.dashed_attached hf hp hk hfp hw,
      Cursor.cluster_option (he ▸ hf.find hp hfp) hk (by simp)]
  case ended he => exact absurd he (ne_of_hides hh)
  case cluster x y zs' hw hx hg =>
    obtain ⟨rfl, rfl⟩ : c = x ∧ zs = y :: zs' := by simpa [hr] using hw
    exact Cursor.dashed_cluster hf hr hx hg
  case word hw => simp [optionLike, ← Bool.not_eq_true, hr] at hw
  case exits h =>
    obtain ⟨s, ws, s', ha⟩ := ha
    cases (h s ws).symm.trans ha

variable {p : Param}

-- A cluster that begins with an option, and its form with a value.
theorem foldlM_split_option (ws : List String) (ho : k.Open) (hf : k.command.Formed)
    (hp : p ∈ k.command.options) (hk : p.isFlag = false) (hfp : String.ofList ['-', c] ∈ p.forms)
    (hz : zs ≠ []) :
    ((String.ofList ['-', c] ++ "=" ++ String.ofList zs) :: ws).foldlM (Cursor.step t) k =
      ws.foldlM (Cursor.step t) (k.cluster (c :: zs)) := by
  let w := String.ofList ['-', c] ++ "=" ++ String.ofList zs
  have hl : w.toList = '-' :: c :: '=' :: zs := by simp [w]
  have hne : w ≠ "--" := Cursor.ne_dashes hl (.inr (by simp))
  have hw : Text.startsWith w (String.ofList ['-', c] ++ "=") := Text.startsWith_append _ _
  rw [List.foldlM_cons, Cursor.step_dashed ho hl hne, Cursor.dashed_attached hf hp hk hfp hw,
    Cursor.cluster_option (hf.find hp hfp) hk hz, ok_bind]

-- A cluster that begins with a flag, and its form and the rest.
theorem foldlM_split_flag (ws : List String) (ho : k.Open) (hf : k.command.Formed)
    (hp : p ∈ k.command.options) (hk : p.isFlag) (hc : c ≠ '-') (hfp : String.ofList ['-', c] ∈ p.forms)
    (hh : k.command.hides rest = false) (hr : rest.toList = '-' :: d :: zs)
    (hm : Meets k.command cs o rest act) (ha : ∃ s ws s', Parsing.act? s rest ws act = some s') :
    (String.ofList ['-', c] :: rest :: ws).foldlM (Cursor.step t) k =
      ws.foldlM (Cursor.step t) (k.cluster (c :: d :: zs)) := by
  have hl : (String.ofList ['-', c]).toList = '-' :: c :: [] := by simp
  have hne : String.ofList ['-', c] ≠ "--" := Cursor.ne_dashes hl (.inl hc)
  have ho' : (k.use p).Open := ⟨ho.awaited, ho.options⟩
  have hrest : (k.use p).dashed rest = (k.use p).cluster (d :: zs) := dashed_rest hf hh hr hm ha
  rw [List.foldlM_cons, Cursor.step_dashed ho hl hne, Cursor.dashed_form hf hp hfp,
    Cursor.give_flag hk, ok_bind, List.foldlM_cons, Cursor.step_dashed ho' hr (ne_of_hides hh), hrest,
    Cursor.cluster_flag (hf.find hp hfp) hk, ok_bind]

end Cluster

-- A cursor can go on like a routine after a step of it.
def Keeps (t : Tree) (k : Cursor) (s s' : Parsing) : Prop :=
  ∃ k', s.words.foldlM (Cursor.step t) k = s'.words.foldlM (Cursor.step t) k' ∧ Tracks t k' s'

namespace Tracks

variable {t : Tree} {o : Options} {k : Cursor} {s s' : Parsing} {w : String} {ws : List String}
variable {p : Param} {n : Nat}

theorem isOpen (h : Tracks t k s) (hw : s.words = w :: ws) : k.Open where
  awaited := h.awaited
  options := by
    rw [h.optionsEnded, ← Bool.not_eq_true]
    intro he
    simp [h.ended he] at hw

-- An option or flag is given, and its values are passed over.
theorem give (h : Tracks t k s) (hw : s.words = w :: ws)
    (hs : Cursor.step t k w = .ok (k.give p n)) (hl : p.valuesPerOccurrence - n ≤ ws.length) :
    Keeps t k s { s with
      given := s.given ++ [p.name], words := ws.drop (p.valuesPerOccurrence - n) } := by
  have ho := h.isOpen hw
  refine ⟨k.use p, ?_, ⟨h.command, ?_, h.positionals, h.awaited, h.optionsEnded⟩, h.mem, ?_⟩
  · rw [hw, List.foldlM_cons, hs, ok_bind]
    exact Cursor.foldlM_give ho hl
  · intro m
    simp [Cursor.mem_used_use, h.used]
  · intro he
    simp [h.ended he] at hw

theorem endOptions (h : Tracks t k s) (hw : s.words = "--" :: ws) :
    Keeps t k s { s with collected := s.collected ++ ws, ended := true, words := [] } := by
  have ho := h.isOpen hw
  let k' : Cursor := { k with optionsEnded := true }
  have hs : Cursor.step t k "--" = .ok k' := by
    simp [Cursor.step, ho.awaited, ho.options, k']
  have hws := Cursor.foldlM_ended (t := t) (k := k') ws ho.awaited rfl
  refine ⟨{ k' with positionals := k.positionals + ws.length }, ?_,
    ⟨h.command, h.used, ?_, h.awaited, rfl⟩, h.mem, fun _ => rfl⟩
  · rw [hw, List.foldlM_cons, hs, ok_bind, hws]
    rfl
  · simp [h.positionals]

-- Words without a dash call children, as long as there is no positional.
theorem takeWord (h : Tracks t k s) (ht : t.Sound) (hw : s.words = w :: ws)
    (hd : optionLike.covers w = false)
    (ha : s.act? w ws (.takeWord (t.subcommands s.command)) = some s') : Keeps t k s s' := by
  have ho := h.isOpen hw
  have hended : s.ended = false := h.optionsEnded ▸ ho.options
  have hs := Cursor.step_word ho (Cursor.isDashed_eq.trans hd) (h.command ▸ ht.findChild_eq_ok h.mem)
  have hzero : k.positionals = 0 ↔ s.collected = [] := by
    rw [h.positionals, List.length_eq_zero_iff]
  simp only [hzero, h.command] at hs
  simp only [Parsing.act?] at ha
  generalize hd : (if s.collected = [] then (t.subcommands s.command).find? (w ∈ ·.callNames)
    else none) = called at hs ha
  rw [Keeps, hw, List.foldlM_cons, hs, ok_bind]
  cases called
  case some d =>
    cases ha
    have hm : d ∈ t.nodes := by
      split at hd
      case isFalse => cases hd
      case isTrue  => exact ht.joined.mem_of_mem_subcommands h.mem (List.mem_of_find?_eq_some hd)
    exact ⟨_, rfl, ⟨rfl, by simp, rfl, rfl, rfl⟩, hm, by simp⟩
  case none =>
    cases ha
    refine ⟨k.collect, rfl, ⟨h.command, h.used, ?_, h.awaited, h.optionsEnded⟩, h.mem, by simp [hended]⟩
    simp [Cursor.collect, h.positionals]

theorem splitCluster {f : ClusterForm} {x y : Char} {zs : List Char} (h : Tracks t k s) (ht : t.Sound)
    (hf : s.command.Formed) (hw : s.words = w :: ws) (hs : s.Scanned t o)
    (hwl : w.toList = '-' :: x :: y :: zs) (hx : x ≠ '-') (hg : ¬ IsGiven s.command w)
    (harm : (Parsing.arm? t o s.command w).map (·.action) =
      some (.splitCluster (clusterForms s.command o)))
    (hfirst : ClusterForm.first? (clusterForms s.command o) w = some f)
    (hc : Parsing.Consumed t o { s with words := f.split w ++ ws }) :
    Keeps t k s { s with words := f.split w ++ ws } := by
  have ho := h.isOpen hw
  have hended : s.ended = false := h.optionsEnded ▸ ho.options
  obtain ⟨hm, hform⟩ := ClusterForm.form_of_first? hfirst
  have hform : f.form = String.ofList ['-', x] := by simpa [hwl] using hform
  have hstep : Cursor.step t k w = .ok (k.cluster (x :: y :: zs)) := by
    have hne : w ≠ "--" := Cursor.ne_dashes hwl (.inl hx)
    rw [Cursor.step_dashed ho hwl hne, Cursor.dashed_cluster (h.command ▸ hf) hwl hx (h.command ▸ hg)]
  refine ⟨k, ?_, ⟨h.command, h.used, h.positionals, h.awaited, h.optionsEnded⟩, h.mem, by simp [hended]⟩
  rw [hw, List.foldlM_cons, hstep, ok_bind]
  cases hv : f.takesValue
  case true =>
    obtain ⟨p, hp, hfp, hk⟩ : ∃ p ∈ s.command.options, f.form ∈ p.forms ∧ p.isFlag = false := by
      simpa [hv] using of_mem_clusterForms hm
    rw [ClusterForm.split_of_value hv hwl, hform]
    exact (foldlM_split_option ws ho (h.command ▸ hf) (h.command ▸ hp) hk (hform ▸ hfp)
      (List.cons_ne_nil y zs)).symm
  case false =>
    have hh : s.command.hides (String.ofList ('-' :: y :: zs)) = false := by
      have hr := Parsing.requeued?_eq_some hw harm hfirst hv
      rw [hwl] at hr
      exact hs _ hr
    rw [ClusterForm.split_of_flag hv hwl] at hc ⊢
    obtain ⟨p, hp, hk, hfp, act, hmeets, _, _, _, ha⟩ := hc.of_split ht h.mem hf hm hv hform hx
    rw [hform] at hfp ⊢
    exact (foldlM_split_flag ws ho (h.command ▸ hf) (h.command ▸ hp) hk hx hfp (h.command ▸ hh)
      String.toList_ofList (h.command ▸ hmeets) ⟨_, _, _, ha⟩).symm

-- What a step of a routine does to the words does not matter to a cursor.
theorem step (h : Tracks t k s) (ht : t.Sound) (hf : s.command.Formed) (hs : s.Scanned t o)
    (hstep : s.step? t o = some s') (hc : s'.Consumed t o) : Keeps t k s s' := by
  cases hw : s.words
  case nil => simp [Parsing.step?, hw] at hstep
  case cons w ws =>
    have ho := h.isOpen hw
    have hk : k.command.Formed := h.command ▸ hf
    have hform : ∀ {p}, p ∈ s.command.options → w ∈ p.forms →
        Cursor.step t k w = .ok (k.give p 0) := by
      intro p hp hfp
      have hw := hf.isForm hp hfp
      obtain ⟨c, cs, hl⟩ := hw.toList_eq
      rw [Cursor.step_dashed ho hl hw.ne_dashes, Cursor.dashed_form hk (h.command ▸ hp) hfp]
    obtain ⟨act, harm, hmeets, ha⟩ := Parsing.step?_eq_some ht h.mem hw hstep
    cases hmeets
    case flag p hp hfl hfp =>
      have hz : p.valuesPerOccurrence = 0 := by
        simp only [Param.isFlag, beq_iff_eq] at hfl
        simp [Param.valuesPerOccurrence, hfl]
      have := h.give hw (hform hp hfp) (by simp [hz])
      simpa [Parsing.act?_raiseFlag ha, hz] using this
    case values p hp hfl hfp =>
      obtain ⟨hl, hs'⟩ := Parsing.act?_values ha
      exact hs' ▸ h.give hw (hform hp hfp) hl
    case attached p f hp hfl hfp hwf =>
      obtain ⟨hl, hs'⟩ := Parsing.act?_values ha
      obtain ⟨c, d, cs, hwl⟩ := hf.toList_of_attached hp hfp hwf
      have hne : w ≠ "--" := Cursor.ne_dashes hwl (.inr (by simp))
      refine hs' ▸ h.give hw ?_ hl
      rw [Cursor.step_dashed ho hwl hne, Cursor.dashed_attached hk (h.command ▸ hp) hfl hfp hwf]
    case ended he =>
      cases ha
      exact h.endOptions (he ▸ hw)
    case cluster x y zs hwl hx hg =>
      obtain ⟨ws', hws, ha⟩ := Option.bind_eq_some_iff.mp ha
      cases ha
      exact h.splitCluster ht hf hw hs hwl hx hg harm hws hc
    case word hd => exact h.takeWord ht hw hd ha
    case exits ho => cases (ho s ws).symm.trans ha

-- The same holds for all steps on the way to the end of the words.
theorem steps (h : Tracks t k s) (ht : t.Sound) (hf : ∀ c ∈ t.nodes, c.Formed)
    (hs : Parsing.Steps t o (Parsing.Scanned t o) s s') (hc : s'.Consumed t o) : Keeps t k s s' := by
  induction hs generalizing k
  case refl => exact ⟨k, rfl, h⟩
  case step hscanned hstep hs hi =>
    have ⟨k₁, hk₁, h₁⟩ := h.step ht (hf _ h.mem) hscanned hstep (hs.consumed hc)
    have ⟨k₂, hk₂, h₂⟩ := hi h₁ hc
    exact ⟨k₂, hk₁.trans hk₂, h₂⟩

end Tracks

section Progress

variable {t : Tree} {k k' : Cursor} {ws : List String}

-- Commands are not left for those around them, and only one word can be passed at a time.
theorem foldlM_step (ht : t.Sound) (hm : k.command ∈ t.nodes) (ws : List String) :
    ∃ k', ws.foldlM (Cursor.step t) k = .ok k' ∧
      (k'.command = k.command → k'.passed ≤ k.passed + ws.length) := by
  let P (done : List String) (k' : Cursor) : Prop :=
    k'.command ∈ t.nodes ∧ k.command.index ≤ k'.command.index ∧
      (k'.command.index = k.command.index → k'.passed ≤ k.passed + done.length)
  have hp : P [] k := ⟨hm, Int.le_refl _, fun _ => Nat.le_refl _⟩
  have hf : ∀ done w k', P done k' → ∃ k'', Cursor.step t k' w = .ok k'' ∧ P (done ++ [w]) k'' := by
    rintro done w k' ⟨hm', hle, hpassed⟩
    have ⟨k'', hs, hc⟩ := Cursor.step_command ht hm' w
    refine ⟨k'', hs, ?_⟩
    cases hc
    case inl hc =>
      simp only [P, hc.1, List.length_append, List.length_singleton]
      exact ⟨hm', hle, fun he => by have := hpassed he; omega⟩
    case inr hc =>
      have := ht.index_lt hc.2
      exact ⟨hc.2.mem, by omega, fun he => by omega⟩
  have ⟨k', hk', _, _, hpassed⟩ : ∃ k', ws.foldlM (Cursor.step t) k = .ok k' ∧ P ws k' :=
    foldlM_ok P hp hf
  exact ⟨k', hk', fun he => hpassed (he ▸ rfl)⟩

end Progress

section Hidden

variable {t : Tree} {o : Options} {k : Cursor} {s s' : Parsing} {rest w : String} {ws : List String}

-- The end of the options is not found in a cluster, and there are not enough words to make up
-- for that.
theorem not_agrees_of_ended (h : Tracks t k s) (ht : t.Sound) (hf : s.command.Formed)
    (hr : s.requeued? t o = some "--") (hs : Parsing.Steps t o (fun _ => True) s s')
    (he : s'.words = []) :
    ∃ k', s.words.foldlM (Cursor.step t) k = .ok k' ∧ ¬ Agrees k' s' := by
  have ⟨w, ws, x, cs, p, hw, hl, hrest, hx, hg, hp, hk, hfp, hs⟩ :=
    Parsing.of_requeued?_of_steps ht h.mem hf hr hs he
  have ho := h.isOpen hw
  have hne : w ≠ "--" := Cursor.ne_dashes hl (.inl hx)
  have hm : (k.dashed w).command ∈ t.nodes := by simpa [h.command] using h.mem
  have ⟨k', hk', hpassed⟩ := foldlM_step ht hm ws
  refine ⟨k', ?_, fun ha => ?_⟩
  · rw [hw, List.foldlM_cons, Cursor.step_dashed ho hl hne, ok_bind, hk']
  have hs' : s'.command = s.command ∧ s'.collected = s.collected ++ ws ∧ s'.ended := by
    cases hs
    case refl => cases he
    case step s₁ _ hs₁ hs =>
      have hs₁ := Parsing.step?_dashes (s := { s with given := s.given ++ [p.name], words := "--" :: ws })
        ht h.mem hf rfl hs₁
      subst hs₁
      cases hs
      case refl          => exact ⟨rfl, rfl, rfl⟩
      case step _ _ h _ => cases h
  have ⟨hcommand, hcollected, hended⟩ := hs'
  have hle := hpassed (by simp [ha.command, hcommand, h.command])
  rw [Cursor.passed_dashed] at hle
  simp only [Cursor.passed, ha.positionals, ha.optionsEnded, h.positionals, ho.options, hcollected,
    hended, List.length_append, Bool.toNat_true, Bool.toNat_false] at hle
  omega

-- Neither is a form with two dashes. It makes a difference unless it has been given before.
theorem not_agrees_of_dashes (h : Tracks t k s) (ht : t.Sound) (hf : s.command.Formed)
    (hw : s.words = [w]) (hr : s.requeued? t o = some rest) (hd : Text.startsWith rest "--")
    (hs : Parsing.Steps t o (fun _ => True) s s') (he : s'.words = []) (hn : s'.given.Nodup) :
    ∃ k', s.words.foldlM (Cursor.step t) k = .ok k' ∧ ¬ Agrees k' s' := by
  obtain ⟨w', ws, x, cs, p, hw', hl, hrest, hx, hg, hp, hk, hfp, hs⟩ :=
    Parsing.of_requeued?_of_steps ht h.mem hf hr hs he
  obtain ⟨rfl, rfl⟩ : w' = w ∧ ws = [] := by simpa [hw] using hw'.symm
  have ho := h.isOpen hw
  obtain ⟨v, hv⟩ := Text.startsWith_iff.mp hd
  obtain rfl : '-' :: v = cs := by simpa [hrest] using hv
  have hne : w' ≠ "--" := Cursor.ne_dashes hl (.inl hx)
  refine ⟨k.use p, ?_, fun ha => ?_⟩
  · rw [hw, List.foldlM_cons, Cursor.step_dashed ho hl hne,
      Cursor.dashed_flag (h.command ▸ hf) (h.command ▸ hp) hk hfp hl hx (h.command ▸ hg)]
    rfl
  have hlast := Parsing.of_steps_of_dashes
    (s := { s with given := s.given ++ [p.name], words := [rest] }) ht h.mem rfl hd hs he
  cases hlast
  case inl hended =>
    have := ha.optionsEnded
    simp [Cursor.use, ho.options, hended] at this
  case inr hq =>
    obtain ⟨q, hq⟩ := hq
    rw [hq] at hn
    have hm : q.name ∈ s.given ++ [p.name] := by
      have hu := (ha.used q.name).mpr (by simp [hq])
      simpa [h.used] using Cursor.mem_used_use.mp hu
    exact (List.nodup_append.mp hn).2.2 _ hm _ (List.mem_singleton_self _) rfl

end Hidden

-- A cursor comes to the end of a routine if nothing is hidden in the rests of clusters. It does not
-- if the first thing that is hidden is the end of the options, and neither if this is a form with
-- two dashes in the last word.
theorem replay_agrees {text : String} {r : Report} (h : check text = .ok r) (ho : r.ok) (o : Options)
    (words : List String) :
    ∃ root, r.tree.root = .ok root ∧
      (∀ s, Parsing.Steps r.tree o (Parsing.Scanned r.tree o) { command := root, words } s →
        s.words = [] → ∃ k, replay r.tree words = .ok k ∧ Agrees k s) ∧
      (∀ s s' rest, Parsing.Steps r.tree o (Parsing.Scanned r.tree o) { command := root, words } s →
        s.requeued? r.tree o = some rest → Text.startsWith rest "--" →
        rest = "--" ∨ s.words.length = 1 ∧ s'.given.Nodup →
        Parsing.Steps r.tree o (fun _ => True) s s' → s'.words = [] →
        ∃ k, replay r.tree words = .ok k ∧ ¬ Agrees k s') := by
  have ht := sound_of_check h
  have hf : ∀ c ∈ r.tree.nodes, c.Formed := fun c hc => formed_of_check h ho hc
  obtain ⟨root, hr, hroot, _⟩ := ht.joined.root_eq_ok
  have hstart : Tracks r.tree { command := root } { command := root, words } :=
    ⟨⟨rfl, by simp, rfl, rfl, rfl⟩, List.mem_of_getElem? hroot, by simp⟩
  have hreplay : replay r.tree words = words.foldlM (Cursor.step r.tree) { command := root } := by
    simp [replay, hr]
  rw [hreplay]
  refine ⟨root, hr, fun s hs he => ?_, fun s s' rest hs hq hd hlast hs' he => ?_⟩
  case refine_1 =>
    obtain ⟨k, hk, hks⟩ := hstart.steps ht hf hs ⟨s, .refl, he⟩
    rw [he] at hk
    exact ⟨k, hk, hks.toAgrees⟩
  case refine_2 =>
    obtain ⟨k, hk, hks⟩ := hstart.steps ht hf hs ⟨s', hs', he⟩
    rw [hk]
    cases hlast
    case inl hrest => exact not_agrees_of_ended hks ht (hf _ hks.mem) (hrest ▸ hq) hs' he
    case inr hlast =>
      obtain ⟨w, hw⟩ := List.length_eq_one_iff.mp hlast.1
      exact not_agrees_of_dashes hks ht (hf _ hks.mem) hw hq hd hs' he hlast.2

-- Two flags in one word are found by both, but a long flag after a short one is not.
theorem replay_agrees_flags :
    ∃ r root, check "# @flag -a\n# @flag -c\n# @flag --b\n" = .ok r ∧ r.ok ∧
      r.tree.root = .ok root ∧
      (∃ s k, Parsing.Steps r.tree {} (Parsing.Scanned r.tree {})
        { command := root, words := ["-ac", "x"] } s ∧ s.words = [] ∧ s.given = ["a", "c"] ∧
        replay r.tree ["-ac", "x"] = .ok k ∧ Agrees k s) ∧
      ∃ s k, Parsing.Steps r.tree {} (fun _ => True) { command := root, words := ["-a-b"] } s ∧
        s.words = [] ∧ s.given = ["a", "b"] ∧ replay r.tree ["-a-b"] = .ok k ∧ ¬ Agrees k s := by
  let root : Command := {
    index := 0
    params := [
      { name := "a", kind := .flag, short := some "-a", line := 1 },
      { name := "c", kind := .flag, short := some "-c", line := 2 },
      { name := "b", kind := .flag, long := some "--b", line := 3 }]
  }
  let r : Report := { tree := ⟨[root]⟩, diagnostics := [], directives := 3 }
  have h : check "# @flag -a\n# @flag -c\n# @flag --b\n" = .ok r := by decide +kernel
  refine ⟨r, root, h, rfl, rfl, ?_, ?_⟩
  case refine_1 =>
    have ⟨_, hr, hagrees, _⟩ := replay_agrees h rfl {} ["-ac", "x"]
    cases hr
    let s : Parsing := { command := root, given := ["a", "c"], collected := ["x"], words := [] }
    have h₁ : Parsing.step? r.tree {} { command := root, words := ["-ac", "x"] } =
        some { command := root, words := ["-a", "-c", "x"] } := by decide +kernel
    have h₂ : Parsing.step? r.tree {} { command := root, words := ["-a", "-c", "x"] } =
        some { command := root, given := ["a"], words := ["-c", "x"] } := by decide +kernel
    have h₃ : Parsing.step? r.tree {} { command := root, given := ["a"], words := ["-c", "x"] } =
        some { command := root, given := ["a", "c"], words := ["x"] } := by decide +kernel
    have h₄ : Parsing.step? r.tree {} { command := root, given := ["a", "c"], words := ["x"] } =
        some s := by decide +kernel
    have hs : Parsing.Steps r.tree {} (Parsing.Scanned r.tree {})
        { command := root, words := ["-ac", "x"] } s := by
      refine .step ?_ h₁ (.step ?_ h₂ (.step ?_ h₃ (.step ?_ h₄ .refl)))
      all_goals decide +kernel
    have ⟨k, hk, ha⟩ := hagrees s hs rfl
    exact ⟨s, k, hs, rfl, rfl, hk, ha⟩
  case refine_2 =>
    have ⟨_, hr, _, hdiffers⟩ := replay_agrees h rfl {} ["-a-b"]
    cases hr
    let s : Parsing := { command := root, given := ["a", "b"], words := [] }
    have h₁ : Parsing.step? r.tree {} { command := root, words := ["-a-b"] } =
        some { command := root, words := ["-a", "--b"] } := by decide +kernel
    have h₂ : Parsing.step? r.tree {} { command := root, words := ["-a", "--b"] } =
        some { command := root, given := ["a"], words := ["--b"] } := by decide +kernel
    have h₃ : Parsing.step? r.tree {} { command := root, given := ["a"], words := ["--b"] } =
        some s := by decide +kernel
    have hs : Parsing.Steps r.tree {} (fun _ => True) { command := root, words := ["-a-b"] } s :=
      .step trivial h₁ (.step trivial h₂ (.step trivial h₃ .refl))
    have hq : Parsing.requeued? r.tree {} { command := root, words := ["-a-b"] } = some "--b" := by
      decide +kernel
    have ⟨k, hk, ha⟩ := hdiffers _ s "--b" .refl hq (by decide) (.inr ⟨rfl, by decide⟩) hs rfl
    exact ⟨s, k, hs, rfl, rfl, hk, ha⟩

end Completion

end ShellArgs
