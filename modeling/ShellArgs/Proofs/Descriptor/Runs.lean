import Mathlib.Data.List.Infix
import Mathlib.Data.List.TakeWhile
import ShellArgs.Descriptor.Rule

-- Runs of grammar rules, whether they succeed or fail. A rule only looks ahead: what it leaves of a
-- text is an end of the text, and so is the place where it fails.

namespace ShellArgs.Descriptor.Rule

variable {α β : Type} {x y : Rule α} {f : α → Rule β} {a : α} {s t : List Char} {c : Char} {n : Nat}
  {p : Char → Bool} {e : Expectation}

-- The results of the rule `x` at the text `s` and what is left of the text have the property `Q`.
structure Runs (x : Rule α) (s : List Char) (Q : α → List Char → Prop) : Prop where
  reach  : ∀ r, (x s r).2 = r ∨ (x s r).2.rest <:+ s
  result : ∀ {r a t}, (x s r).1 = some (a, t) → t <:+ s ∧ Q a t

section Runs

variable {Q Q' : α → List Char → Prop} {R : β → List Char → Prop}

theorem Runs.mono (h : x.Runs s Q) (hq : ∀ a t, Q a t → Q' a t) : x.Runs s Q' where
  reach  := h.reach
  result := fun hx => (h.result hx).imp_right (hq _ _)

theorem runs_of_eq (h : ∀ r, x s r = (some (a, t), r)) (ht : t <:+ s) (hq : Q a t) : x.Runs s Q where
  reach r   := .inl (by rw [h])
  result hx := by
    rw [h] at hx
    cases hx
    exact ⟨ht, hq⟩

theorem runs_pure (h : Q a s) : (pure a : Rule α).Runs s Q :=
  runs_of_eq (fun _ => rfl) (List.suffix_refl s) h

theorem runs_fail : (fail e : Rule α).Runs s Q where
  reach r := by
    unfold fail Reach.extend
    split
    case isTrue  => exact .inr (List.suffix_refl s)
    case isFalse => exact .inl rfl
  result h := nomatch h

theorem runs_bind (hx : x.Runs s Q) (hf : ∀ a t, Q a t → (f a).Runs t R) : (x >>= f).Runs s R where
  reach r := by
    have hr := hx.reach r
    rw [bind_apply]
    split
    case h_2 hs => rwa [hs] at hr
    case h_1 a t r' hs =>
      have ⟨ht, hq⟩ := hx.result (congrArg Prod.fst hs)
      rw [hs] at hr
      rcases (hf a t hq).reach r' with h | h
      case inl => rwa [h]
      case inr => exact .inr (h.trans ht)
  result {r b u} h := by
    rw [bind_apply] at h
    split at h
    case h_2 => cases h
    case h_1 hs =>
      have ⟨ht, hq⟩ := hx.result (congrArg Prod.fst hs)
      exact ((hf _ _ hq).result h).imp_left fun hu => hu.trans ht

theorem runs_orElse (hx : x.Runs s Q) (hy : y.Runs s Q) : (x.orElse y).Runs s Q where
  reach r := by
    have hr := hx.reach r
    unfold orElse
    split
    case h_1 hs => rwa [hs] at hr
    case h_2 r' hs =>
      rw [hs] at hr
      rcases hy.reach r' with h | h
      case inl => rwa [h]
      case inr => exact .inr h
  result {r a t} h := by
    unfold orElse at h
    split at h
    case h_1 hs => exact hx.result ((congrArg Prod.fst hs).trans h)
    case h_2    => exact hy.result h

theorem runs_attempt {Q : Option α → List Char → Prop} (hx : x.Runs s fun a t => Q (some a) t)
    (hn : Q none s) : (attempt x).Runs s Q :=
  runs_orElse (runs_bind hx fun _ _ h => runs_pure h) (runs_pure hn)

theorem runs_eat {Q : Bool → List Char → Prop} (ht : ∀ t, s = c :: t → Q true t)
    (hf : s.head? ≠ some c → Q false s) : (eat c).Runs s Q := by
  cases s with
  | nil => exact runs_of_eq (fun _ => rfl) (List.suffix_refl []) (hf (by simp))
  | cons d s =>
    by_cases h : d = c
    case pos =>
      exact runs_of_eq (fun _ => by rw [eat, if_pos h]) (List.suffix_cons d s) (ht s (by rw [h]))
    case neg =>
      exact runs_of_eq (fun _ => by rw [eat, if_neg h]) (List.suffix_refl _) (hf (by simpa using h))

theorem runs_ofText {f : List Char → Option (α × List Char)}
    (h : ∀ a t, f s = some (a, t) → t <:+ s ∧ Q a t) : (ofText f e).Runs s Q where
  reach r := by
    unfold ofText
    split
    case h_1 => exact .inl rfl
    case h_2 => exact .inr (by simp [fail, Reach.extend])
  result {r a t} hx := by
    unfold ofText at hx
    split at hx
    case h_1 hs => exact h a t (hs.trans hx)
    case h_2    => cases hx

end Runs

-- A text of certain characters has results with the property `F`.
def Makes (x : Rule α) (P : Char → Prop) (F : α → Prop) : Prop :=
  ∀ s, (∀ c ∈ s, P c) → x.Runs s fun a _ => F a

section Makes

variable {P : Char → Prop} {F F' : α → Prop} {G : β → Prop}

theorem Makes.mono (h : x.Makes P F) (hf : ∀ a, F a → F' a) : x.Makes P F' :=
  fun s hs => (h s hs).mono fun a _ => hf a

theorem makes_pure (h : F a) : (pure a : Rule α).Makes P F :=
  fun _ _ => runs_pure h

theorem makes_fail : (fail e : Rule α).Makes P F :=
  fun _ _ => runs_fail

theorem Runs.bind_makes {Q : α → List Char → Prop} (hs : ∀ c ∈ s, P c) (hx : x.Runs s Q)
    (hf : ∀ a t, Q a t → (∀ c ∈ t, P c) → (f a).Runs t fun b _ => G b) :
    (x >>= f).Runs s fun b _ => G b := by
  have hx' : x.Runs s fun a t => Q a t ∧ t <:+ s :=
    ⟨hx.reach, fun h => (hx.result h).imp_right fun hq => ⟨hq, (hx.result h).1⟩⟩
  exact runs_bind hx' fun a t hq => hf a t hq.1 fun c hc => hs c (hq.2.subset hc)

theorem makes_bind (hx : x.Makes P F) (hf : ∀ a, F a → (f a).Makes P G) : (x >>= f).Makes P G :=
  fun s hs => (hx s hs).bind_makes hs fun a t ha ht => hf a ha t ht

theorem makes_orElse (hx : x.Makes P F) (hy : y.Makes P F) : (x.orElse y).Makes P F :=
  fun s hs => runs_orElse (hx s hs) (hy s hs)

theorem makes_attempt (hx : x.Makes P F) : (attempt x).Makes P fun o => ∀ a ∈ o, F a :=
  fun s hs => runs_attempt ((hx s hs).mono fun _ _ ha => by simpa using ha) (by simp)

theorem makes_rest : rest.Makes P fun s => ∀ c ∈ s, P c :=
  fun s hs => runs_of_eq (fun _ => rfl) (List.suffix_refl s) hs

theorem makes_peek : peek.Makes P fun o => ∀ c ∈ o, P c :=
  fun s hs => runs_of_eq (fun _ => rfl) (List.suffix_refl s) fun c hc => hs c (List.mem_of_mem_head? hc)

theorem makes_drop : (drop n).Makes P fun _ => True :=
  fun _ _ => runs_of_eq (fun _ => rfl) (List.drop_suffix n _) trivial

theorem makes_takeWhile : (takeWhile p).Makes P fun cs => ∀ c ∈ cs, P c ∧ p c :=
  fun _ hs => runs_of_eq (fun _ => rfl) (List.dropWhile_suffix p) fun c hc =>
    ⟨hs c ((List.takeWhile_prefix p).subset hc), List.mem_takeWhile_imp hc⟩

theorem makes_eat : (eat c).Makes P fun _ => True :=
  fun _ _ => runs_eat (fun _ _ => trivial) fun _ => trivial

theorem makes_expect : (expect c).Makes P fun _ => True := by
  refine makes_bind makes_eat fun b _ => ?_
  cases b
  case true  => exact makes_pure trivial
  case false => exact makes_fail

-- A function that takes the characters of its result from the text.
theorem makes_ofText {f : List Char → Option (List Char × List Char)}
    (h : ∀ s t u, f s = some (t, u) → t ⊆ s ∧ u <:+ s) :
    (ofText f e).Makes P fun cs => ∀ c ∈ cs, P c :=
  fun s hs => runs_ofText fun t u hf =>
    have ⟨ht, hu⟩ := h s t u hf
    ⟨hu, fun c hc => hs c (ht hc)⟩

end Makes

end ShellArgs.Descriptor.Rule
