import ShellArgs.Proofs.Builder.Faithful
import ShellArgs.Text.Cut

namespace ShellArgs

open Outcome

namespace Text

variable {sep : Char} {s : String} {a b : List Char}

theorem bne_of_not_mem (h : sep ∉ a) : ∀ c ∈ a, (c != sep) = true := by
  intro c hc
  have hne : c ≠ sep := by
    rintro rfl
    exact h hc
  simpa using hne

theorem cut_of_not_mem (h : sep ∉ s.toList) : cut sep s = (s, none) := by
  have hne := bne_of_not_mem h
  simp [cut, List.takeWhile_eq_self_iff.mpr hne, List.dropWhile_eq_nil_iff.mpr hne]

theorem cut_of_eq_append (ha : sep ∉ a) (hs : s.toList = a ++ sep :: b) :
    cut sep s = (String.ofList a, some (String.ofList b)) := by
  have hne := bne_of_not_mem ha
  simp [cut, hs, List.takeWhile_append_of_pos hne, List.dropWhile_append_of_pos hne]

end Text

-- The texts that can be forms.
inductive IsForm : String → Prop
  | short (hc : c ≠ '-') : IsForm (String.ofList ['-', c])
  | long (he : '=' ∉ x :: y :: cs) : IsForm (String.ofList ('-' :: x :: y :: cs))

namespace IsForm

variable {f : String}

theorem toList_eq (h : IsForm f) : ∃ c cs, f.toList = '-' :: c :: cs := by
  cases h
  case short => exact ⟨_, _, String.toList_ofList⟩
  case long  => exact ⟨_, _, String.toList_ofList⟩

-- Only a short form can have an equals sign.
theorem eq_or_not_mem (h : IsForm f) : f = "-=" ∨ '=' ∉ f.toList := by
  cases h
  case long he => exact .inr (by simpa using he)
  case short c _ =>
    by_cases hc : c = '='
    case pos => exact .inl (by rw [hc])
    case neg => exact .inr (by simpa using Ne.symm hc)

theorem eq_short (h : IsForm f) (hl : f.length ≤ 2) : ∃ c, c ≠ '-' ∧ f = String.ofList ['-', c] := by
  cases h
  case short c hc => exact ⟨c, hc, rfl⟩
  case long       => simp [← String.length_toList] at hl

theorem ne_dashes (h : IsForm f) : f ≠ "--" := by
  intro he
  have hl := congrArg String.toList he
  cases h
  case short hc => simp [hc] at hl
  case long     => simp at hl

end IsForm

theorem Param.mem_forms {p : Param} {f : String} (h : f ∈ p.forms) :
    p.long = some f ∨ p.short = some f := by
  simp only [forms, nonempty?, List.mem_filterMap, List.mem_cons, List.not_mem_nil, or_false] at h
  obtain ⟨g, hg, hf⟩ := h
  have he : g = some f := (Option.filter_eq_some_iff.mp hf).1
  obtain rfl | rfl := hg
  · exact .inl he
  · exact .inr he

theorem Descriptor.not_mem_of_isNameChar {cs : List Char} (h : ∀ c ∈ cs, isNameChar c) : '=' ∉ cs := by
  intro hm
  have := h _ hm
  revert this
  decide

theorem Param.Declared.isForm {k : ParamKind} {p : Param} {f : String} (d : p.Declared k)
    (h : f ∈ p.forms) : IsForm f := by
  rw [← String.ofList_toList (s := f)]
  cases Param.mem_forms h
  case inr hs =>
    have ⟨c, hc, hne⟩ := d.short hs
    exact hc ▸ .short hne
  case inl hl =>
    have ⟨cs, hne, hcs, hf⟩ := d.long hl
    have he := Descriptor.not_mem_of_isNameChar hcs
    cases hf
    case inl hf =>
      cases cs
      case nil       => exact absurd rfl hne
      case cons c cs => exact hf ▸ .long (by simpa using he)
    case inr hf =>
      have ⟨hf, hh⟩ := hf
      match cs with
      | []          => exact absurd rfl hne
      | [c]         => exact hf ▸ .short (by simpa using hh)
      | _ :: _ :: _ => exact hf ▸ .long he

-- The options and flags of a command have forms, and no two of them have one in common.
structure Command.Formed (c : Command) : Prop where
  isForm : ∀ {p f}, p ∈ c.options → f ∈ p.forms → IsForm f
  find   : ∀ {p f}, p ∈ c.options → f ∈ p.forms → c.findOption? f = some p

namespace Command.Formed

variable {c : Command} {p : Param} {f : String}

theorem findOption?_iff (h : c.Formed) : c.findOption? f = some p ↔ p ∈ c.options ∧ f ∈ p.forms := by
  constructor
  · intro hf
    exact ⟨List.mem_of_find?_eq_some hf, by simpa using List.find?_some hf⟩
  · exact fun ⟨hp, hf⟩ => h.find hp hf

-- With a value attached to it, a form becomes longer than the shortest ones.
theorem toList_of_attached {w : String} (h : c.Formed) (hp : p ∈ c.options) (hf : f ∈ p.forms)
    (hw : Text.startsWith w (f ++ "=")) : ∃ x y cs, w.toList = '-' :: x :: y :: cs := by
  have ⟨x, cs, he⟩ := (h.isForm hp hf).toList_eq
  have ⟨v, hv⟩ := Text.startsWith_iff.mp hw
  cases cs
  case nil       => exact ⟨x, '=', v, by simp [← hv, he]⟩
  case cons y cs => exact ⟨x, y, cs ++ '=' :: v, by simp [← hv, he]⟩

end Command.Formed

theorem Param.find?_forms {ps : List Param} {p : Param} {f : String} (h : ps.Pairwise Param.Apart)
    (hp : p ∈ ps) (hf : f ∈ p.forms) : ps.find? (·.forms.contains f) = some p := by
  induction h
  case nil => cases hp
  case cons q ps hq _ hi =>
    cases List.mem_cons.mp hp
    case inl he => simp [← he, hf]
    case inr hm =>
      have hn : f ∉ q.forms := fun h => (hq p hm).forms h hf
      simpa [hn] using hi hm

theorem formed_of_check {text : String} {r : Report} {c : Command} (h : check text = .ok r) (ho : r.ok)
    (hc : c ∈ r.tree.nodes) : c.Formed := by
  have ⟨problems, fs, a⟩ := accepted_of_check h ho
  have ⟨_, hf⟩ := check_faithful h ho
  have ⟨hapart, _⟩ := Tree.not_breaks_iff.mp (a.not_breaks hc)
  refine ⟨fun {p f} hp hfp => ?_, fun hp hfp => Param.find?_forms (hapart.filter _) hp hfp⟩
  have ⟨o, ho, hn⟩ := hf.node hc
  have ⟨d, _, hd⟩ := Matching.exists_of_mem_right (hf.params ho hn) (List.mem_of_mem_filter hp)
  have ⟨q, hr, he⟩ := hd.read
  have hdecl : p.Declared p.kind := (Descriptor.declared_of_read hr).of_sameForms (he ▸ ⟨rfl, rfl, rfl⟩)
  exact hdecl.isForm hfp

end ShellArgs
