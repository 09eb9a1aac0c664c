import ShellArgs.Completion.Cursor
import ShellArgs.Proofs.Forms
import ShellArgs.Proofs.Routine.Parsing

namespace ShellArgs

open Outcome

namespace Shell

variable {w word : String} {c : Char}

@[simp] theorem Pattern.covers_startingWith :
    (startingWith word).covers w = true ↔ Text.startsWith w word := by
  simp [covers, startingWith, Glob.covers, Text.startsWith]

@[simp] theorem Pattern.covers_dash_char :
    covers ⟨[.text "-", .char, .rest]⟩ w = true ↔ ∃ x cs, w.toList = '-' :: x :: cs := by
  match h : w.toList with
  | []           => simp [covers, Glob.covers, h]
  | [c]          => simp [covers, Glob.covers, h]
  | c :: x :: cs => simpa [covers, Glob.covers, h] using eq_comm

@[simp] theorem Pattern.covers_dash_charExcept :
    covers ⟨[.text "-", .charExcept c, .char, .rest]⟩ w = true ↔
      ∃ x y cs, w.toList = '-' :: x :: y :: cs ∧ x ≠ c := by
  match h : w.toList with
  | []                => simp [covers, Glob.covers, h]
  | [d]               => simp [covers, Glob.covers, h]
  | [d, x]            => simp [covers, Glob.covers, h]
  | d :: x :: y :: cs => simp [covers, Glob.covers, h, eq_comm (a := '-'), ne_comm (a := x)]

end Shell

namespace Routine

open Shell

variable {t : Tree} {o : Options} {c : Command} {cs : List Command} {w : String} {a : Arm}

-- A word that is a form, or a form with a value attached.
def IsGiven (c : Command) (w : String) : Prop :=
  ∃ p ∈ c.options, ∃ f ∈ p.forms, w = f ∨ Text.startsWith w (f ++ "=")

-- A word and what the first arm for it does, if the routine can go on after that.
inductive Meets (c : Command) (cs : List Command) (o : Options) (w : String) : Action → Prop
  | flag (hp : p ∈ c.options) (hk : p.isFlag) (hf : w ∈ p.forms) : Meets c cs o w (.raiseFlag p)
  | values (hp : p ∈ c.options) (hk : p.isFlag = false) (hf : w ∈ p.forms) :
      Meets c cs o w (.takeValues p)
  | attached (hp : p ∈ c.options) (hk : p.isFlag = false) (hf : f ∈ p.forms)
      (hw : Text.startsWith w (f ++ "=")) : Meets c cs o w (.takeAttached p)
  | ended (hw : w = "--") : Meets c cs o w .endOptions
  | cluster (hw : w.toList = '-' :: x :: y :: zs) (hx : x ≠ '-') (hg : ¬ IsGiven c w) :
      Meets c cs o w (.splitCluster (clusterForms c o))
  | word (hw : optionLike.covers w = false) : Meets c cs o w (.takeWord cs)
  | exits {act : Action} (h : ∀ s ws, Parsing.act? s w ws act = none) : Meets c cs o w act

theorem meets_of_mem_paramArms {p : Param} (hp : p ∈ c.options) (ha : a ∈ paramArms p)
    (hw : a.covers w) : Meets c cs o w a.action := by
  unfold paramArms at ha
  simp only at ha
  split at ha
  case isTrue hk =>
    obtain rfl | rfl : a = _ ∨ a = _ := by simpa using ha
    · exact .flag hp hk (by simpa [Arm.covers] using hw)
    · exact .exits fun _ _ => rfl
  case isFalse hk =>
    have hk : p.isFlag = false := by simpa using hk
    obtain rfl | rfl : a = _ ∨ a = _ := by simpa using ha
    · exact .values hp hk (by simpa [Arm.covers] using hw)
    · simp only [Arm.covers, List.any_map, List.any_eq_true, Function.comp_apply,
        Pattern.covers_startingWith] at hw
      have ⟨f, hf, hw⟩ := hw
      exact .attached hp hk hf hw

theorem exists_mem_paramArms {p : Param} {f : String} (hf : f ∈ p.forms) :
    (∃ a ∈ paramArms p, .exactly f ∈ a.patterns) ∧
      ∃ a ∈ paramArms p, .startingWith (f ++ "=") ∈ a.patterns := by
  have hplain : .exactly f ∈ p.forms.map Pattern.exactly := List.mem_map_of_mem hf
  have hattached : .startingWith (f ++ "=") ∈ p.forms.map fun f => Pattern.startingWith (f ++ "=") :=
    List.mem_map_of_mem hf
  cases hk : p.isFlag
  case false =>
    exact ⟨⟨⟨_, .takeValues p⟩, by simp [paramArms, hk], hplain⟩,
      ⟨_, .takeAttached p⟩, by simp [paramArms, hk], hattached⟩
  case true =>
    exact ⟨⟨⟨_, .raiseFlag p⟩, by simp [paramArms, hk], hplain⟩,
      ⟨_, .refuseValue p⟩, by simp [paramArms, hk], hattached⟩

theorem not_isGiven (h : ∀ a ∈ c.options.flatMap paramArms, a.covers w = false) :
    ¬ IsGiven c w := by
  rintro ⟨p, hp, f, hf, hw⟩
  have hcovers : ∀ {q : Pattern}, (∃ a ∈ paramArms p, q ∈ a.patterns) → q.covers w = false := by
    rintro q ⟨a, ha, hq⟩
    simpa using List.any_eq_false.mp (h a (List.mem_flatMap.mpr ⟨p, hp, ha⟩)) q hq
  have ⟨hplain, hattached⟩ := exists_mem_paramArms hf
  cases hw
  case inl hw =>
    have := hcovers hplain
    simp [hw, ← Bool.not_eq_true] at this
  case inr hw =>
    have := hcovers hattached
    simp [hw, ← Bool.not_eq_true] at this

theorem meets_of_find? (h : (arms c cs o).find? (·.covers w) = some a) :
    Meets c cs o w a.action := by
  have hw : a.covers w := by simpa using List.find?_some h
  simp only [arms, List.find?_append, Option.or_eq_some_iff, Option.or_eq_none_iff] at h
  obtain ((((h | ⟨_, h⟩) | ⟨_, h⟩) | ⟨_, h⟩) | ⟨⟨⟨⟨hg, _⟩, _⟩, _⟩, h⟩) | ⟨_, h⟩ := h
  · have ⟨p, hp, ha⟩ := List.mem_flatMap.mp (List.mem_of_find?_eq_some h)
    exact meets_of_mem_paramArms hp ha hw
  · have hm := List.mem_of_find?_eq_some h
    split at hm
    case isTrue  => cases hm
    case isFalse => exact List.mem_singleton.mp hm ▸ .exits fun _ _ => rfl
  · have hm := List.mem_of_find?_eq_some h
    split at hm
    case isTrue  => cases hm
    case isFalse => exact List.mem_singleton.mp hm ▸ .exits fun _ _ => rfl
  · obtain rfl | rfl : a = _ ∨ a = _ := by simpa using List.mem_of_find?_eq_some h
    · exact .ended (by simpa [Arm.covers] using hw)
    · exact .exits fun _ _ => rfl
  · have hm := List.mem_of_find?_eq_some h
    split at hm
    case isTrue  => cases hm
    case isFalse =>
      cases List.mem_singleton.mp hm
      obtain ⟨x, y, zs, hw, hx⟩ : ∃ x y zs, w.toList = '-' :: x :: y :: zs ∧ x ≠ '-' := by
        simpa [Arm.covers] using hw
      exact .cluster hw hx (not_isGiven fun a ha => by simpa using List.find?_eq_none.mp hg a ha)
  · rw [List.find?_cons] at h
    split at h
    case h_1 => exact Option.some.inj h ▸ .exits fun _ _ => rfl
    case h_2 hd =>
      obtain rfl : a = _ := by simpa using List.mem_of_find?_eq_some h
      exact .word (by simpa [Arm.covers, optionLike] using hd)

-- What a step does follows from what the first arm for a word does.
theorem Parsing.step?_eq_some {s s' : Parsing} {ws : List String} (ht : t.Sound)
    (hm : s.command ∈ t.nodes) (hw : s.words = w :: ws) (h : s.step? t o = some s') :
    ∃ act, (arm? t o s.command w).map (·.action) = some act ∧
      Meets s.command (t.subcommands s.command) o w act ∧ s.act? w ws act = some s' := by
  rw [step?, hw] at h
  have ⟨a, ha, h⟩ := Option.bind_eq_some_iff.mp h
  refine ⟨a.action, by simp [ha], ?_, h⟩
  simp only [arm?, ht.joined.childrenOf_eq_ok hm] at ha
  exact meets_of_find? ha

theorem Parsing.requeued?_eq_some {s : Parsing} {ws : List String} {fs : List ClusterForm}
    {f : ClusterForm} (hw : s.words = w :: ws)
    (ha : (arm? t o s.command w).map (·.action) = some (.splitCluster fs))
    (hf : ClusterForm.first? fs w = some f) (hv : f.takesValue = false) :
    s.requeued? t o = some (String.ofList ('-' :: w.toList.drop 2)) := by
  have ⟨a, ha, he⟩ := Option.map_eq_some_iff.mp ha
  simp [requeued?, hw, ha, he, hf, hv]

theorem Parsing.of_requeued? {s : Parsing} {rest : String} (h : s.requeued? t o = some rest) :
    ∃ w ws fs f, s.words = w :: ws ∧
      (arm? t o s.command w).map (·.action) = some (.splitCluster fs) ∧
      ClusterForm.first? fs w = some f ∧ f.takesValue = false ∧
      rest = String.ofList ('-' :: w.toList.drop 2) := by
  unfold requeued? at h
  split at h
  case h_1 => cases h
  case h_2 w ws hw =>
    obtain ⟨a, ha, h⟩ := Option.bind_eq_some_iff.mp h
    split at h
    case h_2 => cases h
    case h_1 fs he =>
      obtain ⟨f, hf, h⟩ := Option.bind_eq_some_iff.mp h
      split at h
      case isTrue  => cases h
      case isFalse hv =>
        refine ⟨w, ws, fs, f, hw, by simp [ha, he], hf, by simpa using hv, ?_⟩
        exact (Option.some.inj h).symm

theorem ClusterForm.split_of_value {f : ClusterForm} {x : Char} {zs : List Char}
    (hv : f.takesValue) (hw : w.toList = '-' :: x :: zs) :
    f.split w = [f.form ++ "=" ++ String.ofList zs] := by
  simp [split, hv, hw]

theorem ClusterForm.split_of_flag {f : ClusterForm} {x : Char} {zs : List Char}
    (hv : f.takesValue = false) (hw : w.toList = '-' :: x :: zs) :
    f.split w = [f.form, String.ofList ('-' :: zs)] := by
  simp [split, hv, hw]

theorem ClusterForm.form_of_first? {fs : List ClusterForm} {f : ClusterForm}
    (h : first? fs w = some f) : f ∈ fs ∧ f.form = String.ofList (w.toList.take 2) := by
  refine ⟨List.mem_of_find?_eq_some h, ?_⟩
  have : String.ofList (w.toList.take 2) = f.form := by simpa using List.find?_some h
  exact this.symm

-- Forms that no option or flag of the command has.
theorem isForm_of_mem_helpForms {f : String} (h : f ∈ helpForms c o) :
    IsForm f ∧ (f = "-h" ∨ f = "--help") ∧ c.findOption? f = none := by
  unfold helpForms at h
  split at h
  case isFalse => cases h
  case isTrue =>
    have ⟨hm, hn⟩ := List.mem_filter.mp h
    have hf : f = "-h" ∨ f = "--help" := by simpa using hm
    refine ⟨?_, hf, by simpa using hn⟩
    cases hf
    case inl hf => exact hf ▸ .short (show 'h' ≠ '-' by decide)
    case inr hf => exact hf ▸ .long (show '=' ∉ ['-', 'h', 'e', 'l', 'p'] by decide)

theorem isForm_of_mem_versionForms {f : String} (h : f ∈ versionForms c o) :
    IsForm f ∧ (f = "-V" ∨ f = "--version") ∧ c.findOption? f = none := by
  unfold versionForms at h
  split at h
  case isFalse => cases h
  case isTrue =>
    have ⟨hm, hn⟩ := List.mem_filter.mp h
    have hf : f = "-V" ∨ f = "--version" := by simpa using hm
    refine ⟨?_, hf, by simpa using hn⟩
    cases hf
    case inl hf => exact hf ▸ .short (show 'V' ≠ '-' by decide)
    case inr hf => exact hf ▸ .long (show '=' ∉ ['-', 'v', 'e', 'r', 's', 'i', 'o', 'n'] by decide)

-- The forms of a cluster are those of options and flags, and those that call for help.
theorem of_mem_clusterForms {f : ClusterForm} (h : f ∈ clusterForms c o) :
    (∃ p ∈ c.options, f.form ∈ p.forms ∧ f.takesValue = !p.isFlag) ∨
      (f.takesValue = false ∧ ∀ p ∈ c.options, f.form ∉ p.forms) := by
  have hnone : ∀ g, g ∈ helpForms c o ∨ g ∈ versionForms c o → c.findOption? g = none := by
    rintro g (hg | hg)
    · exact (isForm_of_mem_helpForms hg).2.2
    · exact (isForm_of_mem_versionForms hg).2.2
  cases List.mem_append.mp h
  case inl h =>
    obtain ⟨p, hp, hf⟩ := List.mem_filterMap.mp h
    obtain ⟨g, hg, hf⟩ := Option.map_eq_some_iff.mp hf
    subst hf
    exact .inl ⟨p, hp, by simp [Param.forms, hg], rfl⟩
  case inr h =>
    obtain ⟨g, _, hf⟩ := List.mem_filterMap.mp h
    split at hf
    case isFalse => cases hf
    case isTrue hg =>
      cases hf
      have hg : g ∈ helpForms c o ∨ g ∈ versionForms c o := by simpa using hg
      exact .inr ⟨rfl, by simpa [Command.findOption?] using hnone g hg⟩

theorem afterValues?_eq_some {n : Nat} {ws vs : List String} (h : afterValues? n ws = some vs) :
    n ≤ ws.length ∧ vs = ws.drop n := by
  unfold afterValues? at h
  split at h
  case isTrue hn => exact ⟨hn.1, (Option.some.inj h).symm⟩
  case isFalse   => cases h

namespace Parsing

variable {s s' : Parsing} {p : Param} {x : Char} {ws vs : List String}

theorem give?_eq_some (h : s.give? p = some s') : s' = { s with given := s.given ++ [p.name] } := by
  unfold give? at h
  split at h
  case isTrue  => cases h
  case isFalse => exact (Option.some.inj h).symm

theorem act?_raiseFlag (h : s.act? w ws (.raiseFlag p) = some s') :
    s' = { s with given := s.given ++ [p.name], words := ws } := by
  have ⟨g, hg, h⟩ := Option.bind_eq_some_iff.mp h
  cases h
  rw [give?_eq_some hg]

theorem act?_values {n : Nat}
    (h : (do return { ← s.give? p with words := ← afterValues? n ws }) = some s') :
    n ≤ ws.length ∧ s' = { s with given := s.given ++ [p.name], words := ws.drop n } := by
  have ⟨g, hg, h⟩ := Option.bind_eq_some_iff.mp h
  have ⟨vs, hv, h⟩ := Option.bind_eq_some_iff.mp h
  have ⟨hn, hd⟩ := afterValues?_eq_some hv
  cases h
  exact ⟨hn, by rw [give?_eq_some hg, hd]⟩

-- The form that was split off a cluster is given next.
theorem step?_of_split {f : ClusterForm} (ht : t.Sound) (hm : s.command ∈ t.nodes)
    (hc : s.command.Formed) (hf : f ∈ clusterForms s.command o) (hv : f.takesValue = false)
    (he : f.form = String.ofList ['-', x]) (hx : x ≠ '-') (hw : s.words = f.form :: ws)
    (h : s.step? t o = some s') :
    ∃ p ∈ s.command.options, p.isFlag ∧ f.form ∈ p.forms ∧
      s' = { s with given := s.given ++ [p.name], words := ws } := by
  have hflag : ∀ {p}, p ∈ s.command.options → f.form ∈ p.forms → p.isFlag := by
    intro p hp hfp
    cases of_mem_clusterForms hf
    case inr hn => exact absurd hfp (hn.2 p hp)
    case inl hq =>
      have ⟨q, hq, hfq, hk⟩ := hq
      cases (hc.find hp hfp).symm.trans (hc.find hq hfq)
      simpa [hv] using hk
  have hl : f.form.toList = ['-', x] := by simp [he]
  obtain ⟨act, -, hmeets, ha⟩ := step?_eq_some ht hm hw h
  cases hmeets
  case flag p hp hk hfp   => exact ⟨p, hp, hk, hfp, act?_raiseFlag ha⟩
  case values p hp hk hfp => simp [hflag hp hfp] at hk
  case attached p g hp hk hfp hw =>
    have ⟨_, _, _, he⟩ := hc.toList_of_attached hp hfp hw
    simp [he] at hl
  case ended he       => simp [he, Ne.symm hx] at hl
  case cluster hw _ _ => simp [hl] at hw
  case word hw        => simp [optionLike, ← Bool.not_eq_true, hl] at hw
  case exits h        => cases (h s ws).symm.trans ha

-- A routine does not come to the end of the words before it has taken both words that were
-- split off a cluster.
theorem Consumed.of_split {f : ClusterForm} {rest : String} (ht : t.Sound)
    (hm : s.command ∈ t.nodes) (hc : s.command.Formed) (hf : f ∈ clusterForms s.command o)
    (hv : f.takesValue = false) (he : f.form = String.ofList ['-', x]) (hx : x ≠ '-')
    (h : Consumed t o { s with words := f.form :: rest :: ws }) :
    ∃ p ∈ s.command.options, p.isFlag ∧ f.form ∈ p.forms ∧
      ∃ act, Meets s.command (t.subcommands s.command) o rest act ∧
        ∃ s₁ ws₁ s₂, act? s₁ rest ws₁ act = some s₂ := by
  obtain ⟨s₁, hs₁, hc₁⟩ := h.exists_step (by simp)
  obtain ⟨p, hp, hk, hfp, hs₁⟩ := step?_of_split (s := { s with words := f.form :: rest :: ws })
    ht hm hc hf hv he hx rfl hs₁
  subst hs₁
  obtain ⟨s₂, hs₂, _⟩ := hc₁.exists_step (by simp)
  obtain ⟨act, _, hmeets, ha⟩ := step?_eq_some
    (s := { s with given := s.given ++ [p.name], words := rest :: ws }) ht hm rfl hs₂
  exact ⟨p, hp, hk, hfp, act, hmeets, _, _, _, ha⟩

-- Two dashes end the options.
theorem step?_dashes (ht : t.Sound) (hm : s.command ∈ t.nodes) (hc : s.command.Formed)
    (hw : s.words = "--" :: ws) (h : s.step? t o = some s') :
    s' = { s with collected := s.collected ++ ws, ended := true, words := [] } := by
  obtain ⟨act, -, hmeets, ha⟩ := step?_eq_some ht hm hw h
  cases hmeets
  case flag p hp hk hfp   => exact absurd rfl (hc.isForm hp hfp).ne_dashes
  case values p hp hk hfp => exact absurd rfl (hc.isForm hp hfp).ne_dashes
  case attached p g hp hk hfp hw =>
    have ⟨_, _, _, he⟩ := hc.toList_of_attached hp hfp hw
    simp at he
  case ended _        => exact (Option.some.inj ha).symm
  case cluster hw _ _ => simp at hw
  case word hw        => simp [optionLike, ← Bool.not_eq_true] at hw
  case exits h        => cases (h s ws).symm.trans ha

-- A flag is given before the rest of its cluster is taken for a word.
theorem of_requeued?_of_steps {P : Parsing → Prop} {rest : String} (ht : t.Sound)
    (hm : s.command ∈ t.nodes) (hc : s.command.Formed) (hr : s.requeued? t o = some rest)
    (hs : Steps t o P s s') (he : s'.words = []) :
    ∃ w ws x cs p, s.words = w :: ws ∧ w.toList = '-' :: x :: cs ∧ rest.toList = '-' :: cs ∧ x ≠ '-' ∧
      ¬ IsGiven s.command w ∧ p ∈ s.command.options ∧ p.isFlag ∧ String.ofList ['-', x] ∈ p.forms ∧
      Steps t o P { s with given := s.given ++ [p.name], words := rest :: ws } s' := by
  have ⟨w, ws, fs, f, hw, harm, hfirst, hv, hrest⟩ := of_requeued? hr
  have ⟨hf, hform⟩ := ClusterForm.form_of_first? hfirst
  cases hs
  case refl => simp [hw] at he
  case step s₁ _ hs₁ hs =>
    have ⟨act, harm', hmeets, ha⟩ := step?_eq_some ht hm hw hs₁
    cases harm.symm.trans harm'
    cases hmeets
    case exits h => cases (h s ws).symm.trans ha
    case cluster x y zs hl hx hg =>
      have hform : f.form = String.ofList ['-', x] := by simpa [hl] using hform
      have hsplit : f.split w = [f.form, rest] := by
        rw [ClusterForm.split_of_flag hv hl, hrest, hl]
        rfl
      have ⟨_, hf', ha⟩ := Option.bind_eq_some_iff.mp ha
      cases hfirst.symm.trans hf'
      cases ha
      rw [hsplit] at hs
      cases hs
      case refl => cases he
      case step s₂ _ hs₂ hs =>
        have ⟨p, hp, hk, hfp, hs₂⟩ := step?_of_split (s := { s with words := f.form :: rest :: ws })
          ht hm hc hf hv hform hx rfl hs₂
        subst hs₂
        exact ⟨w, ws, x, y :: zs, p, hw, hl, by simp [hrest, hl], hx, hg, hp, hk, hform ▸ hfp, hs⟩

-- The last word of all is an option or flag with two dashes, or two dashes alone.
theorem of_steps_of_dashes {P : Parsing → Prop} {rest : String} (ht : t.Sound)
    (hm : s.command ∈ t.nodes) (hw : s.words = [rest]) (hr : Text.startsWith rest "--")
    (hs : Steps t o P s s') (he : s'.words = []) :
    s'.ended ∨ ∃ p : Param, s'.given = s.given ++ [p.name] := by
  have ⟨cs, hl⟩ := Text.startsWith_iff.mp hr
  have hl : rest.toList = '-' :: '-' :: cs := by simpa using hl.symm
  cases hs
  case refl => simp [hw] at he
  case step s₁ _ hs₁ hs =>
    have hend : s₁.words = [] → s' = s₁ := by
      intro hw
      cases hs
      case refl          => rfl
      case step _ _ h _ => simp [step?, hw] at h
    obtain ⟨act, -, hmeets, ha⟩ := step?_eq_some ht hm hw hs₁
    cases hmeets
    case flag p hp hk hfp =>
      have hs₁ := act?_raiseFlag ha
      rw [hend (by rw [hs₁])]
      exact .inr ⟨p, by rw [hs₁]⟩
    case values p hp hk hfp =>
      have ⟨_, hs₁⟩ := act?_values ha
      rw [hend (by simp [hs₁])]
      exact .inr ⟨p, by rw [hs₁]⟩
    case attached p f hp hk hf hwf =>
      have ⟨_, hs₁⟩ := act?_values ha
      rw [hend (by simp [hs₁])]
      exact .inr ⟨p, by rw [hs₁]⟩
    case ended _ =>
      cases ha
      rw [hend rfl]
      exact .inl rfl
    case cluster hl' hx _ => simp [hl, Ne.symm hx] at hl'
    case word hd          => simp [optionLike, ← Bool.not_eq_true, hl] at hd
    case exits h          => cases (h s []).symm.trans ha

end Parsing

end Routine

end ShellArgs
