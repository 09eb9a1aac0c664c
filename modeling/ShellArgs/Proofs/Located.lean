import ShellArgs.Proofs.Builder.Located
import ShellArgs.Proofs.Check
import ShellArgs.Proofs.Directive.Mistaken

-- Where the reports on a script point to: at lines that say something of its commands. Reports on
-- one line stand in the order of the parts of the work.

namespace ShellArgs

open Directive
open scoped List

-- The number of a line of some kind.
def Text.IsLine (script : String) (P : List Char → Prop) (n : Int) : Prop :=
  ∃ (i : Nat) (l : List Char), (lines script.toList)[i]? = some l ∧ n = i + 1 ∧ P l

namespace Text.IsLine

variable {script : String} {P Q : List Char → Prop} {n : Int}

theorem mono (h : IsLine script P n) (hi : ∀ l, P l → Q l) : IsLine script Q n :=
  have ⟨i, l, hl, hn, hp⟩ := h
  ⟨i, l, hl, hn, hi l hp⟩

theorem and (h : IsLine script P n) (h' : IsLine script Q n) :
    IsLine script (fun l => P l ∧ Q l) n := by
  obtain ⟨i, l, hl, hn, hp⟩ := h
  obtain ⟨j, m, hm, hn', hq⟩ := h'
  obtain rfl : i = j := by omega
  cases hl.symm.trans hm
  exact ⟨i, l, hl, hn, hp, hq⟩

theorem bounds (h : IsLine script P n) : 1 ≤ n ∧ n ≤ (lines script.toList).length := by
  obtain ⟨i, l, hl, rfl, _⟩ := h
  have ⟨hi, _⟩ := List.getElem?_eq_some_iff.mp hl
  omega

end Text.IsLine

open Text (IsLine)

namespace Directive

variable {script : String} {d : Directive} {x : Diagnostic} {n : Int} {e : Event}

theorem marked_of_eventOf? {line : Nat} {l : List Char} {after : List (List Char)}
    (h : eventOf? line l after = some e)
    (hf : ∀ d, e = .directive d → d.kind ≠ .function) : IsMarked l := by
  unfold eventOf? at h
  split at h
  case h_1 m hm => exact isSome_marked?_iff.mp (hm ▸ rfl)
  case h_2 =>
    obtain ⟨name, _, rfl⟩ := Option.map_eq_some_iff.mp h
    exact absurd rfl (hf _ rfl)

theorem isLine_of_mem_diagnostics (h : x ∈ (lex script).2) : IsLine script IsMarked x.line := by
  obtain ⟨e, he, hx⟩ := List.mem_filterMap.mp h
  obtain ⟨i, l, hl, _, he⟩ := mem_eventsOf_iff.mp he
  have hline := line_eventOf? he
  cases e <;> cases hx
  exact ⟨i, l, hl, hline, marked_of_eventOf? he nofun⟩

theorem isLine_of_tagged (h : Tagged (lex script).1 n) : IsLine script IsMarked n := by
  obtain ⟨d, hd, hk, rfl⟩ := h
  obtain ⟨i, l, hl, _, he⟩ := mem_directives_iff.mp hd
  refine ⟨i, l, hl, line_eventOf? he, marked_of_eventOf? he ?_⟩
  rintro _ ⟨⟩
  exact hk

theorem Refuses.kind (h : d.Refuses x) : d.kind = .function := by
  cases h <;> assumption

theorem Refuses.line (h : d.Refuses x) : x.line = d.line := by
  cases h <;> rfl

theorem isLine_of_function (h : d ∈ (lex script).1) (hk : d.kind = .function) :
    IsLine script (fun l => ¬ IsMarked l ∧ Defines d.text.toList l) d.line := by
  obtain ⟨i, l, name, hl, hm, _, hn, rfl⟩ := mem_functions_iff.mp ⟨h, hk⟩
  exact ⟨i, l, hl, rfl, hm, by rwa [String.toList_ofList]⟩

end Directive

namespace Diagnostic

variable {ds : List Diagnostic}

-- Reports of several parts of the work by line. Those on one line are in the order of the parts.
structure Merged (parts : List (List Diagnostic)) (ds : List Diagnostic) : Prop where
  sorted : ds.Pairwise (·.line ≤ ·.line)
  perm   : ds.Perm parts.flatten
  stable : ∀ n, ds.filter (·.line = n) = parts.flatMap (·.filter (·.line = n))

theorem line_trans (d₁ d₂ d₃ : Diagnostic) (h : decide (d₁.line ≤ d₂.line))
    (h' : decide (d₂.line ≤ d₃.line)) : decide (d₁.line ≤ d₃.line) :=
  decide_eq_true (Int.le_trans (of_decide_eq_true h) (of_decide_eq_true h'))

theorem line_total (d₁ d₂ : Diagnostic) :
    decide (d₁.line ≤ d₂.line) || decide (d₂.line ≤ d₁.line) := by
  simpa using Int.le_total d₁.line d₂.line

theorem pairwise_sorted (ds : List Diagnostic) : (sorted ds).Pairwise (·.line ≤ ·.line) :=
  (List.pairwise_mergeSort line_trans line_total ds).imp of_decide_eq_true

-- Sorting is stable.
theorem filter_sorted (ds : List Diagnostic) (n : Int) :
    (sorted ds).filter (·.line = n) = ds.filter (·.line = n) := by
  have hline : ∀ d ∈ ds.filter (·.line = n), d.line = n := fun d hd => by
    simpa using (List.mem_filter.mp hd).2
  have hpair : (ds.filter (·.line = n)).Pairwise fun d₁ d₂ => decide (d₁.line ≤ d₂.line) :=
    List.pairwise_of_forall_mem_list fun d hd d' hd' => by simp [hline d hd, hline d' hd']
  have hsub : ds.filter (·.line = n) <+ sorted ds :=
    List.sublist_mergeSort line_trans line_total hpair List.filter_sublist
  have hfilter := hsub.filter (·.line = n)
  rw [List.filter_eq_self.mpr fun d hd => decide_eq_true (hline d hd)] at hfilter
  exact (hfilter.eq_of_length ((sorted_perm ds).filter _).length_eq.symm).symm

theorem merged_sorted (parts : List (List Diagnostic)) : Merged parts (sorted parts.flatten) where
  sorted := pairwise_sorted _
  perm   := sorted_perm _
  stable := fun n => by rw [filter_sorted, List.filter_flatten, List.flatMap_def]

end Diagnostic

-- A report on a directive line, or on the line of a function that names no command.
def Diagnostic.Pointed (script : String) (x : Diagnostic) : Prop :=
  IsLine script IsMarked x.line ∨
    ∃ d ∈ (lex script).1, d.Refuses x ∧ IsLine script (Defines d.text.toList) x.line

theorem pointed_of_traced {script : String} {x : Diagnostic} (h : Traced (lex script).1 x) :
    x.Pointed script := by
  cases h
  case inl h => exact .inl (isLine_of_tagged h)
  case inr h =>
    obtain ⟨d, hd, hx⟩ := h
    refine .inr ⟨d, hd, hx, hx.line ▸ ?_⟩
    exact (isLine_of_function hd hx.kind).mono fun _ hl => hl.2

theorem Diagnostic.Pointed.bounds {script : String} {x : Diagnostic} (h : x.Pointed script) :
    1 ≤ x.line ∧ x.line ≤ (Text.lines script.toList).length := by
  obtain h | ⟨_, _, _, h⟩ := h <;> exact h.bounds

-- A line that is taken for the definition of a function by mistake is pointed to if and only if the
-- function names no command.
theorem forall_isLine_iff {script : String} {ds : List Diagnostic}
    (h : ∀ x ∈ ds, x.Pointed script) :
    (∀ x ∈ ds,
        IsLine script (fun l => IsMarked l ∨ (∃ name, Defines name l) ∧ ¬ Mistaken l) x.line) ↔
      ∀ d ∈ (lex script).1, ∀ x ∈ ds, d.Refuses x → ¬ IsLine script Mistaken d.line := by
  constructor
  case mp =>
    intro hall d hd x hx hr hm
    have hl := ((hr.line ▸ hall x hx).and hm).and (isLine_of_function hd hr.kind)
    obtain ⟨_, _, _, _, ⟨hl | ⟨_, hn⟩, hm⟩, hmarked, _⟩ := hl
    case inl => exact hmarked hl
    case inr => exact hn hm
  case mpr =>
    intro hall x hx
    cases h x hx
    case inl h => exact h.mono fun _ => .inl
    case inr h =>
      obtain ⟨d, hd, hr, i, l, hl, hn, hdef⟩ := h
      refine ⟨i, l, hl, hn, .inr ⟨⟨_, hdef⟩, fun hm => ?_⟩⟩
      exact hall d hd x hx hr (hr.line ▸ ⟨i, l, hl, hn, hm⟩)

-- All that is reported on a script, by line. Every report points to a directive or to a function,
-- and to no other line unless that is taken for a function and refused as one.
theorem check_located (text : String) : ∃ r t problems found, check text = .ok r ∧
    Tree.ofDirectives (lex text).1 = .ok (t, problems) ∧ t.validate = .ok found ∧
    Diagnostic.Merged [(lex text).2, problems, found] r.diagnostics ∧
    (∀ x ∈ r.diagnostics,
      (1 ≤ x.line ∧ x.line ≤ (Text.lines text.toList).length) ∧ x.Pointed text) ∧
    ((∀ x ∈ r.diagnostics,
        IsLine text (fun l => IsMarked l ∨ (∃ name, Defines name l) ∧ ¬ Mistaken l) x.line) ↔
      ∀ d ∈ (lex text).1, ∀ x ∈ r.diagnostics, d.Refuses x → ¬ IsLine text Mistaken d.line) := by
  have ⟨t, problems, fs, ht, s, hfs, hr⟩ := check_eq_ok text
  have ⟨htree, hproblems⟩ := Tree.located_ofDirectives ht
  have hv : t.validate = .ok (Diagnostic.sorted (fs.map Finding.diagnostic)) := by
    rw [Tree.validate, hfs]
    rfl
  have hlexical : ∀ x ∈ (lex text).2, x.Pointed text :=
    fun x hx => .inl (isLine_of_mem_diagnostics hx)
  have hfound : ∀ x ∈ Diagnostic.sorted (fs.map Finding.diagnostic), x.Pointed text := by
    intro x hx
    obtain ⟨f, hf, rfl⟩ := List.mem_map.mp ((Diagnostic.sorted_perm _).mem_iff.mp hx)
    exact .inl (isLine_of_tagged (htree.of_findings s hfs f hf))
  have hall : ∀ x ∈ Diagnostic.sorted ((lex text).2 ++ problems ++
      Diagnostic.sorted (fs.map Finding.diagnostic)), x.Pointed text := by
    intro x hx
    have hx := (Diagnostic.sorted_perm _).mem_iff.mp hx
    refine List.forall_mem_append.mpr ⟨List.forall_mem_append.mpr ⟨hlexical, ?_⟩, hfound⟩ x hx
    exact fun x hx => pointed_of_traced (hproblems x hx)
  have hmerged := Diagnostic.merged_sorted
    [(lex text).2, problems, Diagnostic.sorted (fs.map Finding.diagnostic)]
  refine ⟨_, t, problems, _, hr, ht, hv, ?_, fun x hx => ⟨(hall x hx).bounds, hall x hx⟩,
    forall_isLine_iff hall⟩
  simpa using hmerged

-- The definition of a subcommand that was commented out.
example : ((check "# @cmd Migrate\n# @alias m\n#db::migrate() \x7b\nmigrate() \x7b\n").toOption.map
    (·.diagnostics.map (·.line))) = some [3] := by
  decide +kernel

end ShellArgs
