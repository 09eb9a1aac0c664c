import ShellArgs.Proofs.Builder.Run

-- The scopes of a builder. The kinds of the directives alone decide between them, and a
-- command is pending just where directives and functions rely on one.

namespace ShellArgs

-- A directive that neither begins a command nor ends one.
def Directive.Inner (d : Directive) : Prop :=
  d.kind ≠ .command ∧ d.kind ≠ .function

namespace Scope

inductive After : List Directive → Scope → Prop
  | header (h : ∀ d ∈ ds, d.kind ≠ .command) : After ds .header
  | command (hk : d.kind = .command) (hl : p.line = d.line) (hi : ∀ e ∈ block, e.Inner) :
      After (before ++ d :: block) (.command p)
  | closed (hk : d.kind = .command) (hi : ∀ e ∈ block, e.Inner) (hf : f.kind = .function)
      (h : ∀ e ∈ after, e.kind ≠ .command) : After (before ++ d :: block ++ f :: after) .closed

namespace After

variable {ds : List Directive} {d : Directive} {sc : Scope} {p p' : PendingCommand}

theorem inner (h : After ds sc) (hd : d.Inner) : After (ds ++ [d]) sc := by
  cases h
  case header h =>
    exact .header (List.forall_mem_append.mpr ⟨h, List.forall_mem_singleton.mpr hd.1⟩)
  case command hk hl hi =>
    rw [List.append_assoc, List.cons_append]
    exact .command hk hl (List.forall_mem_append.mpr ⟨hi, List.forall_mem_singleton.mpr hd⟩)
  case closed hk hi hf h =>
    rw [List.append_assoc, List.cons_append]
    exact .closed hk hi hf (List.forall_mem_append.mpr ⟨h, List.forall_mem_singleton.mpr hd.1⟩)

theorem pending (h : After ds (.command p)) (hl : p'.line = p.line) : After ds (.command p') := by
  cases h
  case command hk hi hl' => exact .command hk (hl.trans hl') hi

theorem opened (hk : d.kind = .command) (hl : p.line = d.line) : After (ds ++ [d]) (.command p) :=
  .command hk hl (by simp)

-- Only a function that follows a pending command matters.
theorem passed (h : After ds sc) (hf : d.kind = .function) (hs : ∀ p, sc ≠ .command p) :
    After (ds ++ [d]) sc := by
  have hd : d.kind ≠ .command := by simp [hf]
  cases h
  case header h =>
    exact .header (List.forall_mem_append.mpr ⟨h, List.forall_mem_singleton.mpr hd⟩)
  case command => exact absurd rfl (hs _)
  case closed hk hi hf' h =>
    rw [List.append_assoc, List.cons_append]
    exact .closed hk hi hf' (List.forall_mem_append.mpr ⟨h, List.forall_mem_singleton.mpr hd⟩)

theorem function (h : After ds (.command p)) (hf : d.kind = .function) : After (ds ++ [d]) .closed := by
  cases h
  case command hk hi _ => exact .closed hk hi hf (by simp)

end After

end Scope

namespace Builder

variable {b b' : Builder} {ds : List Directive} {d : Directive}

theorem Step.scope (h : Step b d b') (hs : Scope.After ds b.scope) :
    Scope.After (ds ++ [d]) b'.scope := by
  cases h
  case refused hk _ _     => exact hs.inner hk
  case header hsc _ _ hd _ => exact (hsc ▸ hs).inner hd.kind_ne
  case pending hsc hl hd  => exact ((hsc ▸ hs).pending hl).inner hd.kind_ne
  case opened hk _        => exact .opened hk rfl
  case reopened hk _      => exact .opened hk rfl
  case passed hk hsc      => exact hs.passed hk hsc
  case main hk hsc        => exact hs.passed hk hsc
  case unnamed hk hsc _ _ => exact (hsc ▸ hs).function hk
  case named hk hsc _ _ _ => exact (hsc ▸ hs).function hk

theorem foldlM_feed_scope (ds : List Directive) :
    ∃ b, ds.foldlM feed {} = .ok b ∧ Scope.After ds b.scope := by
  have ⟨b, hb, _, hs⟩ := foldlM_feed (fun done b => Scope.After done b.scope) (.header (by simp))
    (fun _ h hs => h.scope hs) ds
  exact ⟨b, hb, hs⟩

end Builder

end ShellArgs
