import Mathlib.Data.List.Find
import ShellArgs.Proofs.Tree.Way

namespace ShellArgs

open Outcome

namespace Tree

structure Sound (t : Tree) : Prop where
  root  : ∃ r, t.nodes[0]? = some r ∧ r.parent = none
  index : ∀ {i : Nat} {c : Command}, t.nodes[i]? = some c → c.index = i
  -- Every other command has an earlier one as its parent, which knows it by its name.
  parent : ∀ {i : Nat} {c : Command}, t.nodes[i]? = some c → i ≠ 0 →
    ∃ (p : Nat) (d : Command), p < i ∧ t.nodes[p]? = some d ∧ c.parent = some (p : Int) ∧
      d.children.get? c.name = some (i : Int)
  -- There are no other entries for children.
  child : ∀ {p : Nat} {d : Command} {n : String} {j : Int}, t.nodes[p]? = some d → (n, j) ∈ d.children →
    ∃ (i : Nat) (c : Command), j = i ∧ t.nodes[i]? = some c ∧ c.parent = some (p : Int) ∧
      c.name = n
  names    : ∀ {c : Command}, c ∈ t.nodes → c.children.names.Nodup
  aliases  : ∀ {c : Command}, c ∈ t.nodes → c.aliases.Nodup
  distinct : ∀ {c d : Command} {w : String}, c ∈ t.nodes → d ∈ t.nodes → c.parent = d.parent →
    w ∈ c.callNames → w ∈ d.callNames → c = d

theorem empty_sound : empty.Sound where
  root  := ⟨_, rfl, rfl⟩
  index := by
    intro i c h
    have ⟨hi, h⟩ := List.getElem?_eq_some_iff.mp h
    have : i = 0 := by simpa [empty] using hi
    subst this
    simp [empty] at h
    simp [← h]
  parent := by
    intro i c h hi
    have ⟨hi', _⟩ := List.getElem?_eq_some_iff.mp h
    simp [empty] at hi'
    contradiction
  child := by
    intro p d n j h hm
    have := List.mem_of_getElem? h
    simp_all [empty]
  names    := by simp [empty, Ordered.names]
  aliases  := by simp [empty]
  distinct := by
    intro c d w hc hd _ _ _
    simp_all [empty]

namespace Sound

variable {t : Tree} {c d : Command} {w : String}

theorem exists_parent (s : t.Sound) (h : c ∈ t.nodes) (hp : c.parent ≠ none) :
    ∃ d ∈ t.nodes, t.Below d c ∧ 0 ≤ d.index ∧ d.index < c.index := by
  have ⟨i, hi⟩ := List.getElem?_of_mem h
  have hz : i ≠ 0 := by
    rintro rfl
    have ⟨r, hr, hr'⟩ := s.root
    cases hi.symm.trans hr
    exact hp hr'
  have ⟨p, d, hlt, hd, hc, _⟩ := s.parent hi hz
  refine ⟨d, List.mem_of_getElem? hd, ⟨h, ?_⟩, ?_⟩
  · rw [s.index hd, hc]
  · rw [s.index hd, s.index hi]
    omega

theorem exists_way (s : t.Sound) {c : Command} (h : c ∈ t.nodes) : ∃ cs, t.Way cs c := by
  by_cases hp : c.parent = none
  case pos =>
    have ⟨r, hr, _⟩ := s.root
    have ⟨i, hi⟩ := List.getElem?_of_mem h
    have hz : i = 0 := by
      by_contra hz
      have ⟨_, _, _, _, hc, _⟩ := s.parent hi hz
      cases hp.symm.trans hc
    subst hz
    exact ⟨[], .root (node_eq_ok hi)⟩
  case neg =>
    have ⟨d, hd, hb, _, hlt⟩ := s.exists_parent h hp
    have ⟨cs, w⟩ := exists_way s hd
    exact ⟨cs ++ [c], .child w hb⟩
termination_by c.index.toNat

theorem joined (s : t.Sound) : t.Joined where
  root   := s.root
  index  := s.index
  parent := by
    intro i c h hi
    have ⟨p, d, _, hp⟩ := s.parent h hi
    exact ⟨p, d, hp⟩
  child := s.child
  names := s.names
  way   := s.exists_way

theorem unambiguous (s : t.Sound) : t.Unambiguous :=
  fun hc hd hp hwc hwd => s.distinct hc hd hp (List.mem_cons_of_mem _ hwc) hwd

theorem index_lt (s : t.Sound) (h : t.Below c d) : c.index < d.index := by
  have ⟨p, _, hp, _, hlt⟩ := s.exists_parent h.mem (by simp [h.parent])
  have : p.index = c.index := by simpa [h.parent] using hp.parent.symm
  omega

-- A word calls at most one subcommand.
theorem find?_callNames_iff (s : t.Sound) (h : c ∈ t.nodes) :
    (t.subcommands c).find? (w ∈ ·.callNames) = some d ↔ t.Below c d ∧ w ∈ d.callNames := by
  constructor
  · intro hf
    have hd := (s.joined.mem_subcommands_iff h).mp (List.mem_of_find?_eq_some hf)
    exact ⟨hd, by simpa using List.find?_some hf⟩
  · rintro ⟨hb, hw⟩
    cases hf : (t.subcommands c).find? (w ∈ ·.callNames) with
    | none =>
      have := List.find?_eq_none.mp hf d ((s.joined.mem_subcommands_iff h).mpr hb)
      simp [hw] at this
    | some e =>
      have he := (s.joined.mem_subcommands_iff h).mp (List.mem_of_find?_eq_some hf)
      have hwe : w ∈ e.callNames := by simpa using List.find?_some hf
      rw [s.distinct he.mem hb.mem (he.parent.trans hb.parent.symm) hwe hw]

-- It does not matter that names are looked up before aliases.
theorem findChild_eq_ok (s : t.Sound) (h : c ∈ t.nodes) :
    t.findChild c w = .ok ((t.subcommands c).find? (w ∈ ·.callNames)) := by
  unfold findChild
  split
  case h_1 i hg =>
    have hm := (Ordered.get?_eq_some_iff (s.names h)).mp hg
    have ⟨d, _, hn, hb, hw⟩ := s.joined.node_child h hm
    have := (s.find?_callNames_iff h).mpr ⟨hb, (by simp [Command.callNames, hw] : w ∈ d.callNames)⟩
    rw [hn, map_ok, this]
  case h_2 hg =>
    rw [s.joined.childrenOf_eq_ok h, ok_bind, pure_eq_ok]
    congr 1
    apply List.find?_congr
    intro d hd
    have hb := (s.joined.mem_subcommands_iff h).mp hd
    have hgp := s.joined.get?_children h hb
    have hne : w ≠ d.name := by
      rintro rfl
      simp [hg] at hgp
    simp [Command.callNames, hne]

end Sound

end Tree

end ShellArgs
