import Mathlib.Data.List.TakeWhile
import ShellArgs.Descriptor.Rule

-- Grammar rules at texts where their result is known. How far other alternatives have
-- reached before makes no difference to it.

namespace ShellArgs.Descriptor

-- Where a text begins, if it does at all, `P` holds.
def Opens (P : Char → Prop) (s : List Char) : Prop :=
  ∀ c ∈ s.head?, P c

namespace Opens

variable {P Q : Char → Prop} {s t : List Char} {c : Char}

@[simp]
theorem nil : Opens P [] := by
  simp [Opens]

@[simp]
theorem cons : Opens P (c :: s) ↔ P c := by
  simp [Opens]

theorem mono (h : Opens P s) (hp : ∀ c, P c → Q c) : Opens Q s :=
  fun c hc => hp c (h c hc)

theorem append (hs : Opens P s) (ht : s = [] → Opens P t) : Opens P (s ++ t) := by
  cases s
  case nil  => exact ht rfl
  case cons => exact cons.mpr (cons.mp hs)

theorem not_mem [DecidablePred P] {cs : List Char} (h : Opens P s) (hcs : cs.all (¬P ·)) :
    Opens (· ∉ cs) s := by
  intro c hc hm
  have hn := List.all_eq_true.mp hcs c hm
  exact of_decide_eq_true hn (h c hc)

theorem of_forall (h : ∀ c ∈ s, P c) : Opens P s :=
  fun c hc => h c (List.mem_of_mem_head? hc)

theorem head?_ne (h : Opens P s) (hc : ¬P c) : s.head? ≠ some c :=
  fun he => hc (h c he)

end Opens

namespace Rule

variable {α β : Type} {s t u : List Char} {a : α} {b : β} {c : Char} {e : Expectation}

-- The rule takes the start of `s` for `a`, and leaves `t`.
def Parses (x : Rule α) (s : List Char) (a : α) (t : List Char) : Prop :=
  ∀ r, ∃ r', x s r = (some (a, t), r')

def Refuses (x : Rule α) (s : List Char) : Prop :=
  ∀ r, ∃ r', x s r = (none, r')

variable {x y : Rule α} {f : α → Rule β}

theorem parses_pure : (pure a : Rule α).Parses s a s :=
  fun r => ⟨r, rfl⟩

theorem parses_bind (hx : x.Parses s a t) (hf : (f a).Parses t b u) : (x >>= f).Parses s b u := by
  intro r
  have ⟨r', hr⟩ := hx r
  have ⟨r'', hr'⟩ := hf r'
  exact ⟨r'', by rw [bind_apply, hr]; exact hr'⟩

theorem refuses_bind (hx : x.Parses s a t) (hf : (f a).Refuses t) : (x >>= f).Refuses s := by
  intro r
  have ⟨r', hr⟩ := hx r
  have ⟨r'', hr'⟩ := hf r'
  exact ⟨r'', by rw [bind_apply, hr]; exact hr'⟩

theorem Refuses.bind (hx : x.Refuses s) : (x >>= f).Refuses s := by
  intro r
  have ⟨r', hr⟩ := hx r
  exact ⟨r', by rw [bind_apply, hr]⟩

theorem refuses_fail : (fail e : Rule α).Refuses s :=
  fun r => ⟨r.extend s e, rfl⟩

theorem Parses.orElse (hx : x.Parses s a t) : (x.orElse y).Parses s a t := by
  intro r
  have ⟨r', hr⟩ := hx r
  exact ⟨r', by simp only [Rule.orElse, hr]⟩

theorem Refuses.orElse (hx : x.Refuses s) (hy : y.Parses s a t) : (x.orElse y).Parses s a t := by
  intro r
  have ⟨r', hr⟩ := hx r
  have ⟨r'', hr'⟩ := hy r'
  exact ⟨r'', by simp only [Rule.orElse, hr, hr']⟩

theorem Parses.attempt (hx : x.Parses s a t) : x.attempt.Parses s (some a) t :=
  Parses.orElse (parses_bind hx parses_pure)

theorem Refuses.attempt (hx : x.Refuses s) : x.attempt.Parses s none s :=
  Refuses.orElse hx.bind parses_pure

theorem parses_rest : rest.Parses s s s :=
  fun r => ⟨r, rfl⟩

theorem parses_peek : peek.Parses s s.head? s :=
  fun r => ⟨r, rfl⟩

theorem parses_drop {n : Nat} : (drop n).Parses s () (s.drop n) :=
  fun r => ⟨r, rfl⟩

theorem parses_takeWhile {p : Char → Bool} (hs : ∀ c ∈ s, p c) (ht : Opens (p · = false) t) :
    (takeWhile p).Parses (s ++ t) s t := by
  have h : t.takeWhile p = [] ∧ t.dropWhile p = t := by
    cases t
    case nil  => exact ⟨rfl, rfl⟩
    case cons => simp [Opens.cons.mp ht]
  intro r
  refine ⟨r, ?_⟩
  simp [takeWhile, List.takeWhile_append_of_pos hs, List.dropWhile_append_of_pos hs, h]

theorem parses_eat : (eat c).Parses (c :: s) true s :=
  fun r => ⟨r, by simp [eat]⟩

theorem parses_eat_false (h : s.head? ≠ some c) : (eat c).Parses s false s := by
  intro r
  refine ⟨r, ?_⟩
  cases s
  case nil  => rfl
  case cons => simp [eat, show ¬_ = c by simpa using h]

theorem parses_expect : (expect c).Parses (c :: s) () s :=
  parses_bind parses_eat parses_pure

theorem parses_ofText {f : List Char → Option (α × List Char)} (h : f s = some (a, t)) :
    (ofText f e).Parses s a t :=
  fun r => ⟨r, by simp only [ofText, h]⟩

end Rule

end ShellArgs.Descriptor
