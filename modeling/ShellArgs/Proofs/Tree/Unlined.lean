import ShellArgs.Proofs.Outcome
import ShellArgs.Proofs.Unlined

-- The numbers of lines do not lead anywhere in a tree. Whatever is looked up without them is what
-- is looked up with them, but for the numbers.

namespace ShellArgs

open Outcome

theorem Outcome.mapM_map {ε α β γ : Type} {f : α → Except ε β} {g : β → γ} {h : α → Except ε γ}
    {as : List α} (he : ∀ a ∈ as, h a = g <$> f a) : as.mapM h = List.map g <$> as.mapM f := by
  induction as with
  | nil => rfl
  | cons a as hi =>
    rw [List.mapM_cons, List.mapM_cons, he a List.mem_cons_self,
      hi fun b hb => he b (List.mem_cons_of_mem a hb)]
    cases f a
    case error => rfl
    case ok    => cases as.mapM f <;> rfl

theorem Param.insert_unlined (p : Param) (ps : List Param) :
    p.unlined.insert (ps.map unlined) = (p.insert ps).map unlined := by
  unfold insert
  rw [isPositional_unlined]
  split
  case isTrue  => simp
  case isFalse =>
    simp only [List.takeWhile_map, List.dropWhile_map, Function.comp_def, isPositional_unlined,
      List.map_append, List.map_cons]

namespace Tree

variable {t : Tree} {c : Command} {i : Int}

theorem place?_unlined : t.unlined.place? i = t.place? i := by
  simp [place?, unlined]

theorem place_unlined : t.unlined.place i = t.place i := by
  simp only [place, place?_unlined]

theorem node_unlined : t.unlined.node i = Command.unlined <$> t.node i := by
  unfold node
  rw [place?_unlined]
  cases t.place? i
  case none => rfl
  case some p =>
    have hp : t.unlined.nodes[p]? = t.nodes[p]?.map Command.unlined := List.getElem?_map
    simp only [hp]
    cases t.nodes[p]? <;> rfl

theorem root_unlined : t.unlined.root = Command.unlined <$> t.root :=
  node_unlined

theorem childrenOf_unlined :
    t.unlined.childrenOf c.unlined = List.map Command.unlined <$> t.childrenOf c :=
  mapM_map fun _ _ => node_unlined

theorem findChild_unlined (word : String) :
    t.unlined.findChild c.unlined word = Option.map Command.unlined <$> t.findChild c word := by
  unfold findChild
  rw [Command.children_unlined, childrenOf_unlined]
  cases c.children.get? word
  case some i =>
    simp only [node_unlined]
    cases t.node i <;> rfl
  case none =>
    cases t.childrenOf c
    case error => rfl
    case ok cs =>
      simp only [map_ok, ok_bind, pure_eq_ok, List.find?_map, Function.comp_def,
        Command.aliases_unlined]

theorem path_go_unlined {n : Nat} {seen : List Int} {names : List String} :
    path.go t.unlined n seen c.unlined names = path.go t n seen c names := by
  induction n generalizing seen c names with
  | zero => rfl
  | succ n hi =>
    unfold path.go
    rw [Command.parent_unlined]
    cases c.parent
    case none => rfl
    case some p =>
      simp only [Command.index_unlined, Command.name_unlined, node_unlined]
      cases t.node p
      case error => rfl
      case ok d  => simp only [map_ok, ok_bind, hi]

theorem path_unlined : t.unlined.path c.unlined = t.path c := by
  rw [path, path, path_go_unlined, unlined, List.length_map]

theorem modify_unlined {f g : Command → Command} {p : Nat} (h : ∀ c, g c.unlined = (f c).unlined) :
    t.unlined.modify p g = (t.modify p f).unlined := by
  simp only [modify, unlined, mk.injEq]
  refine List.ext_getElem? fun q => ?_
  rw [List.getElem?_map, List.getElem?_modify, List.getElem?_modify, List.getElem?_map]
  cases t.nodes[q]?
  case none => rfl
  case some c =>
    by_cases hq : p = q
    case pos => simp [hq, h]
    case neg => simp [hq]

theorem addChild_unlined (child : Command) : t.unlined.addChild i child.unlined =
    (fun r => (r.1.unlined, r.2)) <$> t.addChild i child := by
  unfold addChild
  rw [place_unlined, node_unlined]
  cases t.place i
  case error => rfl
  case ok p =>
    cases t.node i
    case error => rfl
    case ok parent =>
      have hlength : t.unlined.nodes.length = t.nodes.length := List.length_map ..
      simp only [map_ok, ok_bind, pure_eq_ok, hlength, Command.unlined]
      rw [modify_unlined
        (f := fun c => { c with children := c.children.put child.name t.nodes.length }) fun _ => rfl]
      simp only [unlined, List.map_append]
      rfl

end Tree

end ShellArgs
