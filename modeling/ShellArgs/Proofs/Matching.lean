import Mathlib.Data.List.Forall2
import Mathlib.Data.List.Nodup

namespace ShellArgs.Matching

variable {α β : Type} {R : α → β → Prop} {a : α} {b : β} {as : List α} {bs : List β}

theorem forall₂_concat (h : List.Forall₂ R as bs) (hr : R a b) :
    List.Forall₂ R (as ++ [a]) (bs ++ [b]) :=
  List.rel_append h (.cons hr .nil)

theorem of_forall₂_concat_right (h : List.Forall₂ R as (bs ++ [b])) :
    ∃ as' a, as = as' ++ [a] ∧ List.Forall₂ R as' bs ∧ R a b := by
  induction bs generalizing as with
  | nil =>
    have ⟨a, as', ha, has, he⟩ := List.forall₂_cons_right_iff.mp h
    cases has
    exact ⟨[], a, he, .nil, ha⟩
  | cons c bs hi =>
    have ⟨a, as', ha, has, he⟩ := List.forall₂_cons_right_iff.mp h
    have ⟨as'', a', he', has', hr⟩ := hi has
    exact ⟨a :: as'', a', by rw [he, he', List.cons_append], .cons ha has', hr⟩

theorem of_forall₂_concat_left (h : List.Forall₂ R (as ++ [a]) bs) :
    ∃ bs' b, bs = bs' ++ [b] ∧ List.Forall₂ R as bs' ∧ R a b :=
  have ⟨bs', b, he, hf, hr⟩ := of_forall₂_concat_right h.flip
  ⟨bs', b, he, hf.flip, hr⟩

theorem exists_of_mem_left (h : List.Forall₂ R as bs) (ha : a ∈ as) : ∃ b ∈ bs, R a b := by
  induction h with
  | nil => cases ha
  | cons hr _ hi =>
    cases List.mem_cons.mp ha
    case inl ha => exact ⟨_, List.mem_cons_self, ha ▸ hr⟩
    case inr ha =>
      have ⟨b, hb, hr⟩ := hi ha
      exact ⟨b, List.mem_cons_of_mem _ hb, hr⟩

theorem exists_of_mem_right (h : List.Forall₂ R as bs) (hb : b ∈ bs) : ∃ a ∈ as, R a b :=
  exists_of_mem_left h.flip hb

-- A property of neighbours carries over.
theorem pairwise_right {P : α → α → Prop} {Q : β → β → Prop} (h : List.Forall₂ R as bs)
    (hq : ∀ {a a' b b'}, R a b → R a' b' → P a a' → Q b b') (hp : as.Pairwise P) :
    bs.Pairwise Q := by
  induction h with
  | nil => exact .nil
  | cons hr hf hi =>
    have ⟨ha, has⟩ := List.pairwise_cons.mp hp
    refine .cons (fun b' hb' => ?_) (hi has)
    have ⟨a', ha', hr'⟩ := exists_of_mem_right hf hb'
    exact hq hr hr' (ha a' ha')

-- Elements whose keys rise are told apart by them.
theorem eq_of_pairwise_lt {f : α → Int} {a' : α} (hp : as.Pairwise (f · < f ·)) (ha : a ∈ as)
    (ha' : a' ∈ as) (h : f a = f a') : a = a' := by
  have hnodup : (as.map f).Nodup := (List.pairwise_map.mpr hp).imp fun h => Int.ne_of_lt h
  exact List.inj_on_of_nodup_map hnodup ha ha' h

theorem filter_of_pairwise_lt {f : α → Int} {k : Int} (hp : as.Pairwise (f · < f ·)) (ha : a ∈ as)
    (hk : f a = k) : as.filter (f · = k) = [a] := by
  obtain ⟨before, after, rfl⟩ := List.append_of_mem ha
  obtain ⟨_, hafter, hbefore⟩ := List.pairwise_append.mp hp
  have hb : before.filter (f · = k) = [] := List.filter_eq_nil_iff.mpr fun b hb => by
    have := hbefore b hb a List.mem_cons_self
    simpa using (by omega : f b ≠ k)
  have ha : after.filter (f · = k) = [] := List.filter_eq_nil_iff.mpr fun b hb => by
    have := (List.pairwise_cons.mp hafter).1 b hb
    simpa using (by omega : f b ≠ k)
  simp [hb, ha, hk]

theorem forall₂_filterMap {f : α → Option β} (h : ∀ a ∈ as, ∃ b, f a = some b ∧ R a b) :
    List.Forall₂ R as (as.filterMap f) := by
  induction as with
  | nil => exact .nil
  | cons a as hi =>
    have ⟨b, hb, hr⟩ := h a List.mem_cons_self
    rw [List.filterMap_cons, hb]
    exact .cons hr (hi fun c hc => h c (List.mem_cons_of_mem a hc))

-- Elements may change in their places.
theorem forall₂_of_getElem?_eq {bs' : List β} {g : Nat → β → β} (h : List.Forall₂ R as bs)
    (hg : ∀ i, bs'[i]? = bs[i]?.map (g i)) (hr : ∀ i a b, R a b → R a (g i b)) :
    List.Forall₂ R as bs' := by
  induction h generalizing bs' g with
  | nil =>
    cases bs' with
    | nil      => exact .nil
    | cons b _ => simpa using hg 0
  | cons ha _ hi =>
    cases bs' with
    | nil       => simpa using hg 0
    | cons b' _ =>
      have hb := hg 0
      simp only [List.getElem?_cons_zero, Option.map_some, Option.some.injEq] at hb
      subst hb
      exact .cons (hr 0 _ _ ha) (hi (fun i => by simpa using hg (i + 1)) fun i => hr (i + 1))

theorem forall₂_modify {f : β → β} {i : Nat} (h : List.Forall₂ R as bs)
    (hf : ∀ a b, R a b → R a (f b)) : List.Forall₂ R as (bs.modify i f) := by
  induction h generalizing i with
  | nil => simp
  | cons ha has hi =>
    cases i
    case zero   => exact .cons (hf _ _ ha) has
    case succ i => exact .cons ha hi

end ShellArgs.Matching
