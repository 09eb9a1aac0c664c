import ShellArgs.Proofs.Tree.Validation

-- What is known of the references in a tree without errors. Each entry for a child leads to a
-- command that answers to it, and the parents of each command lead to one that has none. That
-- commands know their places, and that those with a parent are among its children, does not follow.

namespace ShellArgs

open Outcome

namespace Tree

-- Commands whose parents lead from place to place until there are no more.
inductive Ends (t : Tree) : Command → Prop
  | root  : c.parent = none → Ends t c
  | child {p : Nat} : c.parent = some (p : Int) → t.nodes[p]? = some d → Ends t d → Ends t c

-- The references that are looked at.
structure Fits (t : Tree) : Prop where
  root  : ∃ r, t.nodes[0]? = some r ∧ r.parent = none
  chain : ∀ {c : Command}, c ∈ t.nodes → t.Ends c
  child : ∀ {c : Command} {n : String} {j : Int}, c ∈ t.nodes → (n, j) ∈ c.children →
    ∃ (i : Nat) (d : Command), j = i ∧ t.nodes[i]? = some d ∧ d.parent = some c.index ∧ d.name = n

-- The indices and entries that are not.
structure Listed (t : Tree) : Prop where
  index : ∀ {i : Nat} {c : Command}, t.nodes[i]? = some c → c.index = i
  entry : ∀ {i : Nat} {c : Command}, t.nodes[i]? = some c → i ≠ 0 →
    ∃ d ∈ t.nodes, ∃ n, (n, (i : Int)) ∈ d.children

variable {t : Tree} {c : Command} {ds : List Diagnostic}

theorem ends_of_isBrokenChain (h : t.isBrokenChain c = false) : t.Ends c := by
  suffices ∀ n seen c, isBrokenChain.go t n seen c = false → t.Ends c from this _ _ _ h
  intro n
  induction n
  case zero => simp [isBrokenChain.go]
  case succ n hi =>
    intro seen c h
    unfold isBrokenChain.go at h
    split at h
    case h_1 hp => exact .root hp
    case h_2 p hp =>
      split at h
      case isTrue  => cases h
      case isFalse hs =>
        split at h
        case h_2 => cases h
        case h_1 d hd =>
          simp only [Bool.or_eq_true, decide_eq_true_eq, not_or, Int.not_lt] at hs
          exact .child (by rw [hp, Int.toNat_of_nonneg hs.2]) hd (hi _ d h)

theorem exists_of_pointsBack {n : String} {j : Int} (h : t.pointsBack c n j) :
    ∃ (i : Nat) (d : Command), j = i ∧ t.nodes[i]? = some d ∧ d.parent = some c.index ∧
      d.name = n := by
  unfold pointsBack at h
  split at h
  case isTrue  => cases h
  case isFalse hj =>
    split at h
    case h_2 => cases h
    case h_1 d hd =>
      simp only [Bool.and_eq_true, beq_iff_eq] at h
      exact ⟨j.toNat, d, (Int.toNat_of_nonneg (Int.not_lt.mp hj)).symm, hd, h⟩

theorem fits_of_structureFindings {fs : List Finding} (hs : t.structureFindings = .ok fs)
    (hw : ∀ f ∈ fs, f.violation.severity = .warning) : t.Fits := by
  have ⟨r, hr, h⟩ := bind_eq_ok_iff.mp hs
  cases h
  -- What is found about the structure are errors, so nothing is.
  constructor
  case root =>
    refine ⟨r, getElem?_of_node hr, ?_⟩
    by_contra hp
    have := hw ⟨r.line, .rootHasParent⟩ (List.mem_append_left _ (by simp [Option.isSome_iff_ne_none, hp]))
    cases this
  case chain =>
    intro c hc
    cases hb : t.isBrokenChain c
    case false => exact ends_of_isBrokenChain hb
    case true =>
      have hm : ⟨c.line, .brokenChain c.name⟩ ∈
          (if t.isBrokenChain c then [⟨c.line, .brokenChain c.name⟩] else [] : List Finding) := by
        simp [hb]
      have := hw _ (List.mem_append_right _ (List.mem_flatMap.mpr ⟨c, hc, List.mem_append_left _ hm⟩))
      cases this
  case child =>
    intro c n j hc he
    cases hb : t.pointsBack c n j
    case true => exact exists_of_pointsBack hb
    case false =>
      have hm : ⟨c.line, .strayChild n⟩ ∈ c.children.flatMap fun e =>
          (if t.pointsBack c e.1 e.2 then [] else [⟨c.line, .strayChild e.1⟩] : List Finding) :=
        List.mem_flatMap.mpr ⟨_, he, by simp [hb]⟩
      have := hw _ (List.mem_append_right _ (List.mem_flatMap.mpr ⟨c, hc, List.mem_append_right _ hm⟩))
      cases this

theorem fits_of_validate (h : t.validate = .ok ds) (he : Diagnostic.anyError ds = false) : t.Fits := by
  have ⟨fs, hfs, h⟩ := bind_eq_ok_iff.mp h
  cases h
  have hw := Finding.anyError_eq_false_iff.mp he
  have ⟨gs, hgs, hfs⟩ := bind_eq_ok_iff.mp hfs
  have ⟨cs, _, hfs⟩ := bind_eq_ok_iff.mp hfs
  have ⟨fss, _, hfs⟩ := bind_eq_ok_iff.mp hfs
  cases hfs
  exact fits_of_structureFindings hgs fun f hf => hw f (List.mem_append_left _ hf)

namespace Fits

-- What is not looked at is all that is missing.
section Listed

variable (f : t.Fits) (l : t.Listed) (hk : ∀ c ∈ t.nodes, c.children.names.Nodup)

include f l hk

theorem parent {i : Nat} (hi : t.nodes[i]? = some c) (hz : i ≠ 0) :
    ∃ (p : Nat) (d : Command), t.nodes[p]? = some d ∧ c.parent = some (p : Int) ∧
      d.children.get? c.name = some (i : Int) := by
  have ⟨d, hd, n, hm⟩ := l.entry hi hz
  have ⟨p, hp⟩ := List.getElem?_of_mem hd
  have ⟨k, e, hik, he, hpar, hn⟩ := f.child hd hm
  cases Int.ofNat_inj.mp hik
  cases hi.symm.trans he
  exact ⟨p, d, hp, by rw [hpar, l.index hp], (Ordered.get?_eq_some_iff (hk d hd)).mpr (hn ▸ hm)⟩

theorem way (hc : c ∈ t.nodes) : ∃ cs, t.Way cs c := by
  have he := f.chain hc
  induction he
  case root hp =>
    have ⟨i, hi⟩ := List.getElem?_of_mem hc
    by_cases hz : i = 0
    case pos =>
      subst hz
      exact ⟨[], .root (node_eq_ok hi)⟩
    case neg =>
      have ⟨_, _, _, hp', _⟩ := f.parent l hk hi hz
      cases hp.symm.trans hp'
  case child hp hd _ hi =>
    have ⟨ds, w⟩ := hi (List.mem_of_getElem? hd)
    exact ⟨_, .child w ⟨hc, by rw [hp, l.index hd]⟩⟩

theorem joined : t.Joined where
  root   := f.root
  index  := l.index
  parent := f.parent l hk
  child hp hm :=
    have ⟨i, c, hj, hi, hpar, hn⟩ := f.child (List.mem_of_getElem? hp) hm
    ⟨i, c, hj, hi, by rw [hpar, l.index hp], hn⟩
  names := hk _
  way   := f.way l hk

end Listed

end Fits

theorem Joined.listed (j : t.Joined) : t.Listed where
  index := j.index
  entry hi hz :=
    have ⟨_, d, hd, _, hg⟩ := j.parent hi hz
    have hm := List.mem_of_getElem? hd
    ⟨d, hm, _, (Ordered.get?_eq_some_iff (j.names hm)).mp hg⟩

-- Of trees without errors, those hold together whose commands are all listed.
theorem validate_sound (hk : ∀ c ∈ t.nodes, c.children.names.Nodup) (h : t.validate = .ok ds)
    (he : Diagnostic.anyError ds = false) :
    t.Fits ∧ ((t.Joined ∧ ∃ cs, t.walk = .ok cs ∧ cs.Perm t.nodes) ↔ t.Listed) := by
  have f := fits_of_validate h he
  refine ⟨f, fun ⟨j, _⟩ => j.listed, fun l => ?_⟩
  have j := f.joined l hk
  exact ⟨j, j.walk_perm⟩

theorem validate_sound_subcommand :
    let start : Command := { index := 1, name := "start", parent := some 0 }
    let t : Tree := { nodes := [{ index := 0, children := [("start", 1)] }, start] }
    t.validate = .ok [] ∧ Diagnostic.anyError [] = false ∧ t.Fits ∧ t.Listed ∧ t.Joined ∧
      ∃ cs, t.walk = .ok cs ∧ cs.Perm t.nodes := by
  intro start t
  have hv : t.validate = .ok [] := by decide +kernel
  have ⟨f, hl⟩ := validate_sound (t := t) (by decide) hv rfl
  have l : t.Listed := by
    constructor
    case index =>
      intro i c hi
      match i with
      | 0     => cases hi; rfl
      | 1     => cases hi; rfl
      | i + 2 => cases hi
    case entry =>
      intro i c hi hz
      match i with
      | 0     => contradiction
      | 1     => exact ⟨{ index := 0, children := [("start", 1)] }, by decide, "start", by decide⟩
      | i + 2 => cases hi
  have ⟨j, hw⟩ := hl.mpr l
  exact ⟨hv, rfl, f, l, j, hw⟩

-- No entry leads to the first of these commands any more, and no walk comes by it.
example :
    let start (i : Int) : Command := { index := i, name := "start", parent := some 0 }
    let t : Tree := { nodes := [{ index := 0, children := [("start", 2)] }, start 1, start 2] }
    t.validate = .ok [] ∧ (t.walk.map fun cs => cs.map (·.index)) = .ok [0, 2] := by
  decide +kernel

end Tree

end ShellArgs
