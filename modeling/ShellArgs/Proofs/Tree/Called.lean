import ShellArgs.Proofs.Tree.Growth
import ShellArgs.Tree.Builder

-- Commands called by words, from another command on. Every command can be called by the names
-- on the way to it. In a tree that grows, words go on calling the commands that they have called.

namespace ShellArgs

open Outcome

namespace Tree

-- The command that words call, one after the other, from another command on.
inductive Called (t : Tree) : Command → List String → Command → Prop
  | nil  : Called t c [] c
  | cons : t.Below c d → w ∈ d.callNames → Called t d ws e → Called t c (w :: ws) e

variable {t : Tree} {c d e : Command} {w : String} {ws : List String}

namespace Called

theorem concat (h : t.Called c ws d) (hb : t.Below d e) (hw : w ∈ e.callNames) :
    t.Called c (ws ++ [w]) e := by
  induction h
  case nil            => exact .cons hb hw .nil
  case cons hb' hw' _ hi => exact .cons hb' hw' (hi hb)

theorem of_concat (h : t.Called c (ws ++ [w]) e) :
    ∃ d, t.Called c ws d ∧ t.Below d e ∧ w ∈ e.callNames := by
  induction ws generalizing c
  case nil =>
    cases h
    case cons hb hw h =>
      cases h
      exact ⟨c, .nil, hb, hw⟩
  case cons hi =>
    cases h
    case cons hb hw h =>
      have ⟨d, hd, hl⟩ := hi h
      exact ⟨d, .cons hb hw hd, hl⟩

-- This is what a builder looks for.
theorem descend_eq_ok_iff (s : t.Sound) (h : c ∈ t.nodes) (reached : List String) :
    Builder.descend t c reached ws = .ok (.ok e) ↔ t.Called c ws e := by
  induction ws generalizing c reached
  case nil =>
    constructor
    case mp  => rintro ⟨⟩; exact .nil
    case mpr => rintro ⟨⟩; rfl
  case cons w ws hi =>
    have hfind := s.findChild_eq_ok (w := w) h
    cases hg : (t.subcommands c).find? (w ∈ ·.callNames)
    case none =>
      have hnot : ¬ t.Called c (w :: ws) e := by
        rintro ⟨⟩
        case cons hb hw _ => cases hg.symm.trans ((s.find?_callNames_iff h).mpr ⟨hb, hw⟩)
      simp [Builder.descend, hfind, hg, hnot]
    case some d =>
      have ⟨hb, hw⟩ := (s.find?_callNames_iff h).mp hg
      rw [Builder.descend, hfind, hg, ok_bind]
      refine (hi hb.mem _).trans ⟨.cons hb hw, ?_⟩
      rintro ⟨⟩
      case cons hb' hw' hd =>
        cases hg.symm.trans ((s.find?_callNames_iff h).mpr ⟨hb', hw'⟩)
        exact hd

end Called

-- The names on the way to a command call it.
theorem Way.called {cs : List Command} {r : Command} (w : t.Way cs c) (hr : t.root = .ok r) :
    t.Called r (cs.map (·.name)) c := by
  induction w
  case root h =>
    cases hr.symm.trans h
    exact .nil
  case child hb hi =>
    rw [List.map_append]
    exact hi.concat hb List.mem_cons_self

end Tree

-- A command at its place and with its names, whatever else has become of it.
structure Command.Remains (c d : Command) : Prop where
  index   : d.index = c.index
  name    : d.name = c.name
  aliases : d.aliases = c.aliases
  parent  : d.parent = c.parent

theorem Command.Alike.remains {c d : Command} (h : c.Alike d) : c.Remains d :=
  ⟨h.index, h.name, h.aliases, h.parent⟩

namespace Tree

variable {t t' : Tree} {c d e c' d' : Command} {w : String} {ws : List String} {i j p : Nat}

-- A tree with at least the commands of another one.
def Extends (t t' : Tree) : Prop :=
  ∀ (i : Nat) c, t.nodes[i]? = some c → ∃ d, t'.nodes[i]? = some d ∧ c.Remains d

theorem Extends.refl (t : Tree) : t.Extends t :=
  fun _ _ h => ⟨_, h, rfl, rfl, rfl, rfl⟩

theorem extends_modify {f : Command → Command} (hf : ∀ c, t.nodes[p]? = some c → c.Alike (f c)) :
    t.Extends (t.modify p f) := by
  intro i c h
  have ⟨d, hd, ha⟩ := exists_getElem?_modify hf h
  exact ⟨d, hd, ha.remains⟩

theorem extends_grown : t.Extends (t.grown p c) :=
  fun _ _ h => ⟨_, getElem?_grown_of_some h, by simp, by simp, by simp, by simp⟩

theorem Extends.below (x : t.Extends t') (hb : t.Below c d) (hc : c.Remains c')
    (hj : t.nodes[j]? = some d) (hj' : t'.nodes[j]? = some d') : t'.Below c' d' := by
  have ⟨d'', hd, hr⟩ := x j d hj
  cases hj'.symm.trans hd
  exact ⟨List.mem_of_getElem? hj', by rw [hr.parent, hb.parent, hc.index]⟩

-- Words lead to the same place.
theorem Called.extend (s : t.Sound) (x : t.Extends t') (h : t.Called c ws d)
    (hi : t.nodes[i]? = some c) (hi' : t'.nodes[i]? = some c')
    (hj : t.nodes[j]? = some d) (hj' : t'.nodes[j]? = some d') : t'.Called c' ws d' := by
  induction h generalizing i c'
  case nil =>
    have hij : i = j := by
      have := (s.index hi).symm.trans (s.index hj)
      omega
    subst hij
    cases hi'.symm.trans hj'
    exact .nil
  case cons c e w ws d hb hw _ hih =>
    have ⟨k, hk⟩ := List.getElem?_of_mem hb.mem
    have ⟨c'', hc, hcr⟩ := x i c hi
    have ⟨e', he, her⟩ := x k e hk
    cases hi'.symm.trans hc
    have hw' : w ∈ e'.callNames := by
      rw [Command.callNames, her.name, her.aliases]
      exact hw
    exact .cons (x.below hb hcr hk he) hw' (hih hk he hj)

end Tree

end ShellArgs
