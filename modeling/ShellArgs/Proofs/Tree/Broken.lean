import ShellArgs.Proofs.Tree.Structure

-- Which trees can be checked at all. The checks of the commands follow references again that the
-- check of the structure has found to be wrong, and end where one of them leads nowhere.

namespace ShellArgs

open Outcome

namespace Tree

-- A reference that leads to no place of a tree. Some that do are negative and count from the end,
-- but they are wrong, too.
def Outside (t : Tree) (i : Int) : Prop :=
  i < 0 ∨ t.nodes.length ≤ i
deriving Decidable

variable {t : Tree} {c d : Command} {p : Int} {ds : List Diagnostic}

theorem exists_structureFindings (h : t.nodes ≠ []) : ∃ fs, t.structureFindings = .ok fs :=
  have ⟨r, hr⟩ := exists_root_iff.mpr h
  ⟨_, by rw [structureFindings, hr]; rfl⟩

namespace Closed

theorem exists_label (h : t.Closed) (hc : t.Reached c) (ha : t.Above c d) : ∃ l, t.label d = .ok l :=
  exists_label_iff.mpr (exists_path fun hd hp => h.parent hc (ha.trans hd) hp)

theorem exists_commandFindings (h : t.Closed) (hc : t.Reached c) :
    ∃ fs, t.commandFindings c = .ok fs := by
  have ⟨owner, ho⟩ := h.exists_label hc .self
  have ⟨shadows, hs, _⟩ := shadowFindings_ok (h.exists_label hc)
  have ⟨cs, hcs⟩ := exists_childrenOf fun _ _ hi => h.child hc hi
  exact ⟨_, by simp [commandFindings, childFindings, ho, hs, hcs]; rfl⟩

theorem exists_validate (h : t.Closed) (hr : t.nodes ≠ []) : ∃ ds, t.validate = .ok ds := by
  have ⟨fs, hfs⟩ := exists_structureFindings hr
  have ⟨cs, hcs⟩ := exists_walk hr h.child
  have ⟨_, _, v⟩ := visited_of_walk hcs
  have ⟨fss, hfss⟩ := exists_mapM fun c hc => h.exists_commandFindings (v.reached c hc)
  exact ⟨_, by simp [validate, findings, hfs, hcs, hfss]; rfl⟩

end Closed

-- Nothing is reported where a reference leads nowhere.
theorem closed_of_validate (u : t.Distinct) (h : t.validate = .ok ds) : t.Closed := by
  have ⟨fs, hfs, _⟩ := bind_eq_ok_iff.mp h
  have ⟨_, _, hfs⟩ := bind_eq_ok_iff.mp hfs
  have ⟨cs, hcs, hfs⟩ := bind_eq_ok_iff.mp hfs
  have ⟨fss, hfss, _⟩ := bind_eq_ok_iff.mp hfs
  have ⟨_, _, v⟩ := visited_of_walk hcs
  constructor
  case child =>
    intro c n i hc hi
    have ⟨d, hd, _⟩ := v.below c ((mem_walk_iff u hcs).mpr hc) n i hi
    exact exists_node_iff.mp ⟨d, hd⟩
  case parent =>
    intro c d p hc ha hp
    have ⟨gs, _, hgs⟩ := exists_of_mapM_eq_ok hfss ((mem_walk_iff u hcs).mpr hc)
    have ⟨owner, ho, _⟩ := bind_eq_ok_iff.mp hgs
    have ⟨ns, hns⟩ := exists_label_iff.mp ⟨owner, ho⟩
    exact resolves_of_path u hc.mem_nodes hns ha hp

namespace Fits

theorem not_outside_child (f : t.Fits) (hc : c ∈ t.nodes) {e : String × Int} (he : e ∈ c.children) :
    ¬ t.Outside e.2 := by
  have ⟨i, d, hi, hd, _⟩ := f.child hc he
  have ⟨hlt, _⟩ := List.getElem?_eq_some_iff.mp hd
  rw [Outside]
  omega

theorem not_outside_parent (f : t.Fits) (hc : c ∈ t.nodes) (hp : c.parent = some p) :
    ¬ t.Outside p := by
  cases f.chain hc
  case root hn => cases hn.symm.trans hp
  case child hd _ hq =>
    cases hq.symm.trans hp
    have ⟨hlt, _⟩ := List.getElem?_eq_some_iff.mp hd
    rw [Outside]
    omega

end Fits

-- A tree can be checked if all references that are followed lead somewhere, and only then if no two
-- commands have one index. A reference to a place that there is not is an error wherever it is.
theorem validate_reports (hr : t.nodes ≠ []) :
    (t.Closed → ∃ ds, t.validate = .ok ds) ∧
    (t.Distinct → (∃ ds, t.validate = .ok ds) → t.Closed) ∧
    ∀ ds, t.validate = .ok ds →
      (∃ c ∈ t.nodes, (∃ e ∈ c.children, t.Outside e.2) ∨ ∃ p ∈ c.parent, t.Outside p) →
        Diagnostic.anyError ds := by
  refine ⟨fun h => h.exists_validate hr, fun u ⟨_, h⟩ => closed_of_validate u h, ?_⟩
  intro ds h ⟨c, hc, ho⟩
  by_contra he
  have f := fits_of_validate h (Bool.not_eq_true _ ▸ he)
  cases ho
  case inl ho =>
    have ⟨e, hm, ho⟩ := ho
    exact f.not_outside_child hc hm ho
  case inr ho =>
    have ⟨p, hp, ho⟩ := ho
    exact f.not_outside_parent hc hp ho

theorem validate_reports_last :
    let start : Command := { index := 1, name := "start", parent := some 0 }
    let t : Tree := { nodes := [{ index := 0, children := [("start", -1)] }, start] }
    t.nodes ≠ [] ∧ t.Distinct ∧ t.Closed ∧ ∃ ds, t.validate = .ok ds ∧ Diagnostic.anyError ds := by
  intro start t
  have hr : t.nodes ≠ [] := by decide
  have ⟨hok, hcl, herr⟩ := validate_reports hr
  have hu : ∀ c ∈ t.nodes, ∀ d ∈ t.nodes, c.index = d.index → c = d := by decide
  have u : t.Distinct := fun hc hd => hu _ hc _ hd
  have h : t.Closed := .of_nodes (by decide)
  have ⟨ds, hds⟩ := hok h
  have herr := herr ds hds ⟨_, List.mem_cons_self, by decide⟩
  exact ⟨hr, u, hcl u ⟨ds, hds⟩, ds, hds, herr⟩

-- There is no such place from the end, either.
example :
    let t : Tree := { nodes := [{ index := 0, children := [("start", -2)] }] }
    t.validate = .error (.noNode (-2)) := by
  decide +kernel

end Tree

end ShellArgs
