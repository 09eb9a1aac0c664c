import ShellArgs.Proofs.Directive.Shapes

namespace ShellArgs.Directive

variable {line n : Nat} {ls : List (List Char)}

-- The kind of directive whose tag a line has.
def tagged? (l : List Char) : Option DirectiveKind :=
  DirectiveKind.all.find? fun k => k ≠ .function ∧ HasTag k.name.toList l

-- The lines of a script with known tags, by kind and number.
def taggedLines (script : String) : List (DirectiveKind × Int) :=
  go 1 (Text.lines script.toList)
where
  go (line : Nat) : List (List Char) → List (DirectiveKind × Int)
    | []      => []
    | l :: ls =>
      match tagged? l with
      | some k => (k, (line : Int)) :: go (line + 1) ls
      | none   => go (line + 1) ls

theorem tagged?_eq (l : List Char) :
    tagged? l = (marked? l).bind fun m => DirectiveKind.ofTag? (String.ofList m.tag) := by
  cases h : marked? l
  case none => simp [tagged?, hasTag_iff, h]
  case some m =>
    have htag (k : DirectiveKind) : HasTag k.name.toList l ↔ k.name = String.ofList m.tag := by
      simp [hasTag_iff, h, String.ext_iff, eq_comm]
    simp [tagged?, DirectiveKind.ofTag?, htag, List.find?_filter]

theorem tagged?_eq_none_of_continuation? {l s : List Char} (h : continuation? l = some s) :
    tagged? l = none := by
  unfold continuation? at h
  split at h
  case isTrue => cases h
  case isFalse hm =>
    have : marked? l = none := by
      cases hc : marked? l
      case none   => rfl
      case some m => simp [hc] at hm
    simp [tagged?_eq, this]

-- Continuation lines hold no directives.
theorem tagged?_eq_none_of_mem_take {l : List Char} (h : l ∈ ls.take (continuations ls).length) :
    tagged? l = none := by
  induction ls
  case nil => simp at h
  case cons m ls hi =>
    unfold continuations at h
    split at h
    case h_2 => simp at h
    case h_1 s hs =>
      rw [List.length_cons, List.take_succ_cons] at h
      cases List.mem_cons.mp h
      case inl h => exact h ▸ tagged?_eq_none_of_continuation? hs
      case inr h => exact hi h

theorem ne_function_of_ofTag? {s : String} {k : DirectiveKind} (h : DirectiveKind.ofTag? s = some k) :
    k ≠ .function := by
  have := List.mem_of_find?_eq_some h
  simpa using (List.mem_filter.mp this).2

section Read

variable {m : Marked} {k : DirectiveKind} {s : String}

-- What is read from a line, before its continuation.
theorem of_readMarked (h : readMarked m = .ok (k, s)) :
    DirectiveKind.ofTag? (String.ofList m.tag) = some k ∧ s = String.ofList (Text.trim m.rest) ∧
      (k = .before ∨ k = .after → Shell.isFunctionName s.toList) := by
  unfold readMarked at h
  simp only at h
  split at h
  case isTrue => cases h
  case isFalse =>
    split at h
    case h_1 => cases h
    case h_2 k' hk =>
      split at h
      case isTrue => cases h
      case isFalse =>
        split at h
        case isTrue => cases h
        case isFalse =>
          split at h
          case isTrue => cases h
          case isFalse hn =>
            cases h
            exact ⟨hk, rfl, fun hh => by simpa [hh] using hn⟩

theorem ofTag?_of_readMarked (h : readMarked m = .ok (k, s)) :
    DirectiveKind.ofTag? (String.ofList m.tag) = some k :=
  (of_readMarked h).1

end Read

-- The directives that lines give rise to, but for functions, by kind and line.
def tags (es : List Event) : List (DirectiveKind × Int) :=
  ((es.filterMap Event.directive?).filter (·.kind ≠ .function)).map fun d => (d.kind, d.line)

theorem tags_events (ha : ∀ l ∈ ls.take n, tagged? l = none)
    (hp : ∀ e ∈ events line n ls, e.diagnostic? = none) :
    tags (events line n ls) = taggedLines.go line ls := by
  induction ls generalizing line n
  case nil => simp [events, tags, taggedLines.go]
  case cons l ls hi =>
    cases n
    case succ n =>
      have hl : tagged? l = none := ha l (by simp)
      simp only [events, taggedLines.go, hl] at hp ⊢
      exact hi (fun m hm => ha m (by simp [hm])) hp
    case zero =>
      have hnil : ∀ m ∈ ls.take 0, tagged? m = none := by simp
      have hcont : ∀ m ∈ ls.take (continuations ls).length, tagged? m = none :=
        fun m hm => tagged?_eq_none_of_mem_take hm
      unfold events at hp ⊢
      cases hm : marked? l
      case none =>
        have hl : tagged? l = none := by simp [tagged?_eq, hm]
        simp only [hm, taggedLines.go, hl] at hp ⊢
        cases hf : function? l
        case none =>
          simp only [hf] at hp
          exact hi hnil hp
        case some f =>
          simp only [hf] at hp
          have := hi hnil fun e he => hp e (List.mem_cons_of_mem _ he)
          simpa [tags, Event.directive?] using this
      case some m =>
        cases hr : readMarked m
        case error p => simp [hm, hr, Event.diagnostic?] at hp
        case ok a =>
          obtain ⟨k, s⟩ := a
          have hk := ofTag?_of_readMarked hr
          have hne := ne_function_of_ofTag? hk
          have hl : tagged? l = some k := by simp [tagged?_eq, hm, hk]
          simp only [hm, hr, taggedLines.go, hl] at hp ⊢
          split
          case isTrue hc =>
            rw [if_pos hc] at hp
            have := hi hcont fun e he => hp e (List.mem_cons_of_mem _ he)
            simpa [tags, Event.directive?, hne] using this
          case isFalse hc =>
            rw [if_neg hc] at hp
            have := hi hnil fun e he => hp e (List.mem_cons_of_mem _ he)
            simpa [tags, Event.directive?, hne] using this

-- Nothing that is tagged is dropped without a problem.
theorem tags_lex {script : String} (h : ∀ d ∈ (lex script).2, d.isError = false) :
    ((lex script).1.filter (·.kind ≠ .function)).map (fun d => (d.kind, d.line)) =
      taggedLines script := by
  refine tags_events (by simp) fun e he => ?_
  cases hd : e.diagnostic?
  case none   => rfl
  case some d =>
    have hmem : d ∈ (lex script).2 := List.mem_filterMap.mpr ⟨e, he, hd⟩
    have herr : d.isError := by
      cases e
      case directive => cases hd
      case problem   => cases hd; rfl
    simp [h d hmem] at herr

-- The lines of directives rise from a line on.
structure Rising (line : Nat) (ds : List Directive) : Prop where
  pairwise : ds.Pairwise (·.line < ·.line)
  le       : ∀ d ∈ ds, (line : Int) ≤ d.line

namespace Rising

variable {ds : List Directive}

theorem skip (h : Rising (line + 1) ds) : Rising line ds where
  pairwise := h.pairwise
  le := by
    intro d hd
    have := h.le d hd
    omega

theorem next (h : Rising (line + 1) ds) (k : DirectiveKind) (s : String) :
    Rising line (⟨k, s, line⟩ :: ds) where
  pairwise := by
    refine List.pairwise_cons.mpr ⟨fun d hd => ?_, h.pairwise⟩
    have := h.le d hd
    show (line : Int) < d.line
    omega
  le := by
    intro d hd
    cases List.mem_cons.mp hd
    case inl h  => exact h ▸ Int.le_refl _
    case inr hd => exact h.skip.le d hd

end Rising

theorem rising_events : Rising line ((events line n ls).filterMap Event.directive?) := by
  induction ls generalizing line n
  case nil => exact ⟨by simp [events], by simp [events]⟩
  case cons l ls hi =>
    cases n
    case succ n => exact hi.skip
    case zero =>
      unfold events
      simp only
      split
      case h_1 =>
        split
        case h_1 => exact hi.skip
        case h_2 =>
          split
          case isTrue  => exact hi.next ..
          case isFalse => exact hi.next ..
      case h_2 =>
        split
        case h_1 => exact hi.next ..
        case h_2 => exact hi.skip

theorem pairwise_line_lex (script : String) : (lex script).1.Pairwise (·.line < ·.line) :=
  rising_events.pairwise

end ShellArgs.Directive
