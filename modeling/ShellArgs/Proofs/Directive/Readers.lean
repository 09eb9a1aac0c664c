import ShellArgs.Directive.Scan
import ShellArgs.Proofs.Directive.Accounting

-- Readers of one script, advanced in any order. A reader comes to the directives one by one,
-- whatever the others do. The record of problems is that of the reader that began last, as long as
-- no other one goes on.

namespace ShellArgs.Directive

variable {es : List Event} {k : Nat}

-- Only problems are passed on the way to the next directive.
theorem next_split (es : List Event) : ∃ front, (next es).1 = front.filterMap Event.diagnostic? ∧
    es = front ++ ((next es).2.1.toList.map Event.directive ++ (next es).2.2) := by
  induction es
  case nil => exact ⟨[], rfl, rfl⟩
  case cons e es hi =>
    cases e
    case directive d => exact ⟨[], rfl, rfl⟩
    case problem line column p =>
      obtain ⟨front, hm, he⟩ := hi
      refine ⟨.problem line column p :: front, ?_, ?_⟩
      · simp [next, hm, Event.diagnostic?]
      · simpa [next] using he

theorem next_ended (h : (next es).2.1 = none) : (next es).2.2 = [] := by
  induction es
  case nil => rfl
  case cons e es hi =>
    cases e
    case directive d => cases h
    case problem     => exact hi h

theorem directive_next (es : List Event) :
    (next es).2.1 = (es.filterMap Event.directive?).head? := by
  rw [← filterMap_directive_next es]
  cases h : (next es).2.1
  case none   => simp [next_ended h]
  case some d => rfl

theorem line_of_diagnostic? {e : Event} {p : Diagnostic} (h : e.diagnostic? = some p) :
    p.line = e.line := by
  cases e <;> cases h
  rfl

-- What lies ahead of a reader that was advanced a number of times.
def ahead (es : List Event) : Nat → List Event
  | 0     => es
  | k + 1 => (next (ahead es k)).2.2

-- The problems that it has met.
def met (es : List Event) : Nat → List Diagnostic
  | 0     => []
  | k + 1 => met es k ++ (next (ahead es k)).1

theorem filterMap_directive_ahead (es : List Event) (k : Nat) :
    (ahead es k).filterMap Event.directive? = (es.filterMap Event.directive?).drop k := by
  induction k
  case zero => rfl
  case succ k hi =>
    rw [← List.tail_drop, ← hi, ← filterMap_directive_next (ahead es k)]
    cases h : (next (ahead es k)).2.1
    case none   => simp [ahead, next_ended h]
    case some d => rfl

theorem directive_next_ahead (es : List Event) (k : Nat) :
    (next (ahead es k)).2.1 = (es.filterMap Event.directive?)[k]? := by
  rw [directive_next, filterMap_directive_ahead, List.head?_drop]

theorem ahead_split (es : List Event) (k : Nat) :
    ∃ passed, met es k = passed.filterMap Event.diagnostic? ∧ es = passed ++ ahead es k := by
  induction k
  case zero => exact ⟨[], rfl, rfl⟩
  case succ k hi =>
    obtain ⟨passed, hm, he⟩ := hi
    obtain ⟨front, hn, ha⟩ := next_split (ahead es k)
    refine ⟨passed ++ (front ++ (next (ahead es k)).2.1.toList.map Event.directive), ?_, ?_⟩
    · cases h : (next (ahead es k)).2.1 <;> simp [met, hm, hn, Event.diagnostic?]
    · rw [List.append_assoc, List.append_assoc]
      exact he.trans (congrArg _ ha)

-- The problems before a directive, or all of them if there is none.
def problemsBefore (ps : List Diagnostic) : Option Directive → List Diagnostic
  | some d => ps.filter (·.line < d.line)
  | none   => ps

theorem problemsBefore_directive {front rest : List Event} {d : Directive}
    (hs : (front ++ .directive d :: rest).Pairwise (·.line < ·.line)) :
    problemsBefore ((front ++ .directive d :: rest).filterMap Event.diagnostic?) (some d) =
      front.filterMap Event.diagnostic? := by
  rw [List.pairwise_append, List.pairwise_cons] at hs
  obtain ⟨_, ⟨hrest, _⟩, hfront⟩ := hs
  have hkept : ∀ p ∈ front.filterMap Event.diagnostic?, p.line < d.line := by
    intro p hp
    obtain ⟨e, he, hp⟩ := List.mem_filterMap.mp hp
    exact line_of_diagnostic? hp ▸ hfront e he _ List.mem_cons_self
  have hleft : ∀ p ∈ rest.filterMap Event.diagnostic?, ¬ p.line < d.line := by
    intro p hp
    obtain ⟨e, he, hp⟩ := List.mem_filterMap.mp hp
    have hlt : d.line < e.line := hrest e he
    rw [line_of_diagnostic? hp]
    omega
  rw [problemsBefore, List.filterMap_append, List.filterMap_cons_none rfl, List.filter_append,
    List.filter_eq_self.mpr (by simpa using hkept), List.filter_eq_nil_iff.mpr (by simpa using hleft),
    List.append_nil]

-- A reader has met the problems before the directive that it came to.
theorem met_succ (hs : es.Pairwise (·.line < ·.line)) (k : Nat) : met es (k + 1) =
    problemsBefore (es.filterMap Event.diagnostic?) (es.filterMap Event.directive?)[k]? := by
  obtain ⟨passed, hm, he⟩ := ahead_split es k
  obtain ⟨front, hn, ha⟩ := next_split (ahead es k)
  have hmet : met es (k + 1) = (passed ++ front).filterMap Event.diagnostic? := by
    rw [met, hm, hn, List.filterMap_append]
  have hes : es = (passed ++ front) ++
      ((next (ahead es k)).2.1.toList.map Event.directive ++ (next (ahead es k)).2.2) := by
    rw [List.append_assoc, ← ha, ← he]
  rw [hmet, ← directive_next_ahead es k]
  cases h : (next (ahead es k)).2.1
  case none =>
    rw [h, next_ended h, Option.toList_none, List.map_nil, List.append_nil, List.append_nil] at hes
    rw [problemsBefore, ← hes]
  case some d =>
    rw [h, Option.toList_some, List.map_singleton, List.singleton_append] at hes
    conv_rhs => rw [hes]
    exact (problemsBefore_directive (hes ▸ hs)).symm

namespace Scan

-- A reader is known by its name. A new reader with the name takes the place of an earlier one.
inductive Operation where
  | enter (name : String)
  | advance (name : String)
  | readAll

-- Nothing happens if there is no reader to advance.
def perform (s : Scan) : Operation → Scan
  | .enter name   => s.enter name
  | .advance name => ((s.advance? name).map Prod.snd).getD s
  | .readAll      => s.readAll.2

def run (script : String) (ops : List Operation) : Scan :=
  ops.foldl perform (ofText script)

-- How often a reader was advanced so far, if there is one.
def advances (name : String) (ops : List Operation) : Option Nat :=
  ops.foldl count none
where
  count (n : Option Nat) : Operation → Option Nat
    | .enter m   => if m = name then some 0 else n
    | .advance m => if m = name then n.map (· + 1) else n
    | .readAll   => n

-- No other reader is advanced.
def Operation.Spares (name : String) : Operation → Prop
  | enter m   => m ≠ name
  | advance m => m = name
  | readAll   => False

-- A reader depends on nothing but how often it was advanced.
structure Follows (s : Scan) (es : List Event) (ops : List Operation) : Prop where
  script  : s.script = es
  readers : ∀ name, s.readers.get? name =
    (advances name ops).map fun k => { ahead := ahead es k, started := k ≠ 0 }

-- The record of problems is that of one reader, which has set out.
structure Records (s : Scan) (es : List Event) (ops : List Operation) (name : String) : Prop where
  follows  : s.Follows es ops
  recorded : ∃ k, advances name ops = some (k + 1) ∧ s.diagnostics = met es (k + 1)

variable {s : Scan} {script name : String} {ops late : List Operation} {op : Operation}

theorem advances_concat : advances name (ops ++ [op]) = advances.count name (advances name ops) op :=
  List.foldl_concat ..

namespace Follows

-- The reader that is advanced, if there is one, and what it comes to.
theorem advance?_eq (h : s.Follows es ops) (name : String) : s.advance? name =
    (advances name ops).map fun k => ((es.filterMap Event.directive?)[k]?, { s with
      readers := s.readers.put name { ahead := ahead es (k + 1), started := true }
      diagnostics := (if k = 0 then [] else s.diagnostics) ++ (next (ahead es k)).1 }) := by
  rw [advance?, h.readers, Option.map_map]
  apply congrArg (Option.map · (advances name ops))
  funext k
  cases k <;> simp [advance, ← directive_next_ahead, ahead]

theorem perform (h : s.Follows es ops) (op : Operation) : (s.perform op).Follows es (ops ++ [op]) := by
  cases op
  case enter m =>
    refine ⟨h.script, fun name => ?_⟩
    rw [advances_concat, Scan.perform, enter, h.script]
    by_cases hm : m = name
    case pos => simp [advances.count, hm, ahead]
    case neg => simp [advances.count, hm, Ordered.get?_put_of_ne (Ne.symm hm), h.readers]
  case readAll => exact ⟨h.script, fun name => by rw [advances_concat]; exact h.readers name⟩
  case advance m =>
    rw [Scan.perform, h.advance?_eq]
    cases hk : advances m ops
    case none =>
      refine ⟨h.script, fun name => ?_⟩
      rw [advances_concat]
      by_cases hm : m = name
      case pos => simp [advances.count, h.readers, ← hm, hk]
      case neg => simp [advances.count, h.readers, hm]
    case some k =>
      refine ⟨h.script, fun name => ?_⟩
      rw [advances_concat]
      by_cases hm : m = name
      case pos => simp [advances.count, ← hm, hk]
      case neg => simp [advances.count, hm, Ordered.get?_put_of_ne (Ne.symm hm), h.readers]

theorem foldl (h : s.Follows es ops) (late : List Operation) :
    (late.foldl Scan.perform s).Follows es (ops ++ late) := by
  induction late generalizing s ops
  case nil => simpa using h
  case cons op late hi =>
    have := hi (h.perform op)
    rwa [List.append_assoc] at this

end Follows

namespace Records

-- A reader begins the record anew when it sets out.
theorem of_first (h : s.Follows es ops) (hk : advances name ops = some 0) :
    (s.perform (.advance name)).Records es (ops ++ [.advance name]) name where
  follows := h.perform _
  recorded := by
    refine ⟨0, ?_, ?_⟩
    · rw [advances_concat, hk]
      simp [advances.count]
    · rw [Scan.perform, h.advance?_eq, hk]
      simp [met]

theorem perform (h : s.Records es ops name) (ho : op.Spares name) :
    (s.perform op).Records es (ops ++ [op]) name where
  follows := h.follows.perform op
  recorded := by
    obtain ⟨k, hk, hd⟩ := h.recorded
    cases op
    case enter m =>
      exact ⟨k, by rw [advances_concat, hk]; simp [advances.count, show m ≠ name from ho], hd⟩
    case readAll => cases ho
    case advance m =>
      obtain rfl : m = name := ho
      refine ⟨k + 1, ?_, ?_⟩
      · rw [advances_concat, hk]
        simp [advances.count]
      · rw [Scan.perform, h.follows.advance?_eq, hk]
        simp [hd, met]

theorem foldl (h : s.Records es ops name) (ho : ∀ op ∈ late, op.Spares name) :
    (late.foldl Scan.perform s).Records es (ops ++ late) name := by
  induction late generalizing s ops
  case nil => simpa using h
  case cons op late hi =>
    have ⟨hop, hlate⟩ := List.forall_mem_cons.mp ho
    have := hi (h.perform hop) hlate
    rwa [List.append_assoc] at this

end Records

theorem follows_run (script : String) (ops : List Operation) :
    (run script ops).Follows (eventsOf script) ops := by
  have hstart : (ofText script).Follows (eventsOf script) [] := ⟨rfl, fun _ => rfl⟩
  exact hstart.foldl ops

theorem diagnostics_run (script : String) {early : List Operation}
    (hk : advances name early = some 0) (ho : ∀ op ∈ late, op.Spares name) :
    ∃ k, advances name (early ++ .advance name :: late) = some (k + 1) ∧
      (run script (early ++ .advance name :: late)).diagnostics =
        problemsBefore (lex script).2 (lex script).1[k]? := by
  have h := (Records.of_first (follows_run script early) hk).foldl ho
  obtain ⟨k, ha, hd⟩ := h.recorded
  rw [List.append_assoc, List.singleton_append] at ha
  refine ⟨k, ha, ?_⟩
  rw [run, List.foldl_append, List.foldl_cons]
  exact hd.trans (met_succ pairwise_line_events k)

-- A new reader that is advanced until nothing is left.
def pass (script name : String) : List Operation :=
  .enter name :: List.replicate ((lex script).1.length + 1) (.advance name)

theorem advances_replicate (n : Nat) :
    advances name (ops ++ List.replicate n (.advance name)) = (advances name ops).map (· + n) := by
  induction n
  case zero => simp
  case succ n hi =>
    rw [List.replicate_succ', ← List.append_assoc, advances_concat, hi]
    simp [advances.count, Function.comp_def, Nat.add_assoc]

theorem diagnostics_pass (script name : String) (ops : List Operation) :
    (run script (ops ++ pass script name)).diagnostics = (lex script).2 := by
  let n := (lex script).1.length
  have hk : advances name (ops ++ [.enter name]) = some 0 := by
    rw [advances_concat]
    simp [advances.count]
  have hops : ops ++ pass script name =
      (ops ++ [.enter name]) ++ .advance name :: List.replicate n (.advance name) := by
    simp [pass, List.replicate_succ, n]
  have hspares : ∀ op ∈ List.replicate n (Operation.advance name), op.Spares name := by
    intro op hop
    rw [List.eq_of_mem_replicate hop]
    rfl
  obtain ⟨k, ha, hd⟩ := diagnostics_run script hk hspares
  have hn : advances name ((ops ++ [.enter name]) ++ List.replicate (n + 1) (.advance name)) =
      (advances name (ops ++ [.enter name])).map (· + (n + 1)) := advances_replicate (n + 1)
  rw [List.replicate_succ, ha, hk] at hn
  have hlast : (lex script).1[k]? = none := by
    rw [List.getElem?_eq_none_iff]
    have : k + 1 = 0 + (n + 1) := Option.some.inj hn
    omega
  rw [hops, hd, hlast, problemsBefore]

-- However several readers of a script take turns, each one comes to the directives in their order.
-- A complete pass leaves all problems in the record, and a reader on its own those that are before
-- its directive.
theorem run_restartable (script : String) (ops : List Operation) :
    (∀ name, ((run script ops).advance? name).map Prod.fst =
      (advances name ops).map fun k => (lex script).1[k]?) ∧
    ((run script ops).readAll.1 = (lex script).1 ∧
      (run script ops).readAll.2.diagnostics = (lex script).2 ∧
      ∀ name, (run script (ops ++ pass script name)).diagnostics = (lex script).2) ∧
    ∀ name early late, ops = early ++ .advance name :: late → advances name early = some 0 →
      (∀ op ∈ late, op.Spares name) → ∃ k, advances name ops = some (k + 1) ∧
        (run script ops).diagnostics = problemsBefore (lex script).2 (lex script).1[k]? := by
  have h := follows_run script ops
  refine ⟨fun name => ?_, ⟨?_, ?_, fun name => diagnostics_pass script name ops⟩, ?_⟩
  case refine_1 =>
    rw [h.advance?_eq, Option.map_map]
    rfl
  case refine_2 => rw [readAll, h.script, lex]
  case refine_3 => rw [readAll, h.script, lex]
  case refine_4 =>
    rintro name early late rfl hk ho
    exact diagnostics_run script hk ho

-- One reader is on its way when another one sets out.
theorem run_restartable_two :
    let script := "# @one\n# @cmd a\n# @two\nf()\n# @three"
    let early : List Operation := [.enter "a", .enter "b", .advance "b"]
    let late : List Operation := [.enter "c", .advance "a"]
    let ops := early ++ .advance "a" :: late
    advances "a" early = some 0 ∧ (∀ op ∈ late, op.Spares "a") ∧ advances "b" ops = some 1 ∧
      ((run script ops).advance? "b").map Prod.fst = some (lex script).1[1]? ∧
      ∃ k, advances "a" ops = some (k + 1) ∧
        (run script ops).diagnostics = problemsBefore (lex script).2 (lex script).1[k]? := by
  intro script early late ops
  have hk : advances "a" early = some 0 := rfl
  have hb : advances "b" ops = some 1 := rfl
  have ho : ∀ op ∈ late, op.Spares "a" := by simp [late, Operation.Spares]
  obtain ⟨hnext, _, hrecord⟩ := run_restartable script ops
  exact ⟨hk, ho, hb, by rw [hnext, hb]; rfl, hrecord "a" early late rfl hk ho⟩

end Scan

end ShellArgs.Directive
