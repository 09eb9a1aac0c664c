import ShellArgs.Directive.Lexer
import ShellArgs.Proofs.Descriptor.Forms
import ShellArgs.Tree.Builder

namespace ShellArgs

namespace Directive

-- The parameter that a directive declares.
def param? (d : Directive) : Option Param := do
  let k ← ParamKind.ofDirective? d.kind
  (Descriptor.read k d.text d.line).toOption

-- The variable that a directive binds.
def binding? (d : Directive) : Option EnvBinding :=
  if d.kind = .env then (Builder.envBinding? d.text).map fun (v, t) => ⟨v, t, d.line⟩ else none

end Directive

-- What directives add to, in the header as well as in a command.
structure Contents where
  params : List Param := []
  env : List EnvBinding := []
  aliases : List (String × Int) := []
  before : Option String := none
  after : Option String := none

namespace Contents

-- What a single directive adds.
inductive Adds (d : Directive) (c : Contents) : Contents → Prop
  | text (h : d.kind = .describe ∨ d.kind = .version ∨ d.kind = .author) : Adds d c c
  | param (k : ParamKind) (h : d.kind = k.directive) (hr : Descriptor.read k d.text d.line = .ok p) :
      Adds d c { c with params := p.insert c.params }
  | env (h : d.kind = .env) (he : Builder.envBinding? d.text = some (v, t)) :
      Adds d c { c with env := c.env ++ [⟨v, t, d.line⟩] }
  | aliases (h : d.kind = .aliases) :
      Adds d c { c with
        aliases := c.aliases ++ (Directive.aliasNames d.text).map fun s => (String.ofList s, d.line) }
  | before (h : d.kind = .before) (hb : c.before = none) : Adds d c { c with before := some d.text }
  | after (h : d.kind = .after) (ha : c.after = none) : Adds d c { c with after := some d.text }

end Contents

def PendingCommand.contents (p : PendingCommand) : Contents :=
  ⟨p.params, p.env, p.aliases, p.before, p.after⟩

-- Variables of the header are bound at the end of the script, and are kept until then.
def Command.headerContents (root : Command) (env : List EnvBinding) : Contents :=
  ⟨root.params, env, [], root.before, root.after⟩

namespace Contents

-- What directives add up to. Functions add nothing.
inductive Of : List Directive → Contents → Prop
  | nil : Of [] {}
  | add (h : Of ds c) (ha : c.Adds d c') : Of (ds ++ [d]) c'
  | function (h : Of ds c) (hk : d.kind = .function) : Of (ds ++ [d]) c

namespace Adds

variable {d : Directive} {c c' : Contents}

theorem kind_ne (h : c.Adds d c') : d.kind ≠ .command ∧ d.kind ≠ .function := by
  cases h
  case text h      => obtain h | h | h := h <;> simp [h]
  case param k h _ => cases k <;> simp [h, ParamKind.directive]
  case env h _     => simp [h]
  case aliases h   => simp [h]
  case before h _  => simp [h]
  case after h _   => simp [h]

end Adds

end Contents

theorem ParamKind.ofDirective?_eq_some_iff {k : ParamKind} {dk : DirectiveKind} :
    ParamKind.ofDirective? dk = some k ↔ dk = k.directive := by
  cases dk <;> cases k <;> simp [ofDirective?, directive]

namespace Param

-- Options and flags come before positionals.
def arranged (ps : List Param) : List Param :=
  ps.filter (!·.isPositional) ++ ps.filter (·.isPositional)

theorem insert_arranged (p : Param) (ps : List Param) :
    p.insert (arranged ps) = arranged (ps ++ [p]) := by
  have hopt : ∀ q ∈ ps.filter (!·.isPositional), (!q.isPositional) = true := by simp
  have hpos : (ps.filter (·.isPositional)).takeWhile (!·.isPositional) = [] ∧
      (ps.filter (·.isPositional)).dropWhile (!·.isPositional) = ps.filter (·.isPositional) := by
    cases h : ps.filter (·.isPositional)
    case nil => simp
    case cons q qs =>
      have : q ∈ ps.filter (·.isPositional) := h ▸ List.mem_cons_self
      simp [(List.mem_filter.mp this).2]
  unfold insert arranged
  cases hp : p.isPositional
  case true => simp [hp]
  case false =>
    rw [List.takeWhile_append_of_pos hopt, List.dropWhile_append_of_pos hopt, hpos.1, hpos.2]
    simp [hp]

end Param

namespace Contents.Of

variable {ds : List Directive} {d : Directive} {c : Contents} {k : ParamKind}

theorem param?_eq_some (hk : d.kind = k.directive) {p : Param}
    (hr : Descriptor.read k d.text d.line = .ok p) : d.param? = some p := by
  simp [Directive.param?, ParamKind.ofDirective?_eq_some_iff.mpr hk, hr, Except.toOption]

theorem params_eq (h : Of ds c) : c.params = Param.arranged (ds.filterMap Directive.param?) := by
  induction h
  case nil => rfl
  case function ds c d h hk hi => simp [hi, Directive.param?, hk, ParamKind.ofDirective?]
  case add ds c d c' h ha hi =>
    rw [List.filterMap_append]
    cases ha
    case text h =>
      have : d.param? = none := by
        obtain h | h | h := h <;> simp [Directive.param?, h, ParamKind.ofDirective?]
      simp [this, hi]
    case param p k hk hr =>
      simp only [hi, Param.insert_arranged]
      simp [param?_eq_some hk hr]
    case env h _    => simp [Directive.param?, h, ParamKind.ofDirective?, hi]
    case aliases h  => simp [Directive.param?, h, ParamKind.ofDirective?, hi]
    case before h _ => simp [Directive.param?, h, ParamKind.ofDirective?, hi]
    case after h _  => simp [Directive.param?, h, ParamKind.ofDirective?, hi]

theorem env_eq (h : Of ds c) : c.env = ds.filterMap Directive.binding? := by
  induction h
  case nil => rfl
  case function ds c d h hk hi => simp [hi, Directive.binding?, hk]
  case add ds c d c' h ha hi =>
    rw [List.filterMap_append]
    cases ha
    case text h       => obtain h | h | h := h <;> simp [Directive.binding?, h, hi]
    case param k h _  => cases k <;> simp [Directive.binding?, h, ParamKind.directive, hi]
    case env h he     => simp [Directive.binding?, h, he, hi]
    case aliases h    => simp [Directive.binding?, h, hi]
    case before h _   => simp [Directive.binding?, h, hi]
    case after h _    => simp [Directive.binding?, h, hi]

-- What a directive adds is there in the end, if further directives leave it there.
theorem of_mem {P : Contents → Prop} (h : Of ds c) (hd : d ∈ ds) (hf : d.kind ≠ .function)
    (hadd : ∀ {c c'}, Adds d c c' → P c') (hkeep : ∀ {c c' e}, P c → Adds e c c' → P c') : P c := by
  induction h
  case nil => cases hd
  case function ds c e h he hi =>
    cases List.mem_append.mp hd
    case inl hd => exact hi hd
    case inr hd => exact absurd (List.mem_singleton.mp hd ▸ he) hf
  case add ds c e c' h ha hi =>
    cases List.mem_append.mp hd
    case inl hd => exact hkeep (hi hd) ha
    case inr hd => exact hadd (List.mem_singleton.mp hd ▸ ha)

-- All parameter directives can be read.
theorem exists_param (h : Of ds c) (hd : d ∈ ds) (hk : d.kind = k.directive) :
    ∃ p, Descriptor.read k d.text d.line = .ok p := by
  have hkind := ParamKind.ofDirective?_eq_some_iff.mpr hk
  refine h.of_mem (P := fun _ => ∃ p, Descriptor.read k d.text d.line = .ok p) hd
    (by cases k <;> simp [hk, ParamKind.directive]) ?_ fun h _ => h
  intro c c' ha
  cases ha
  case param p k' h hr =>
    cases hkind.symm.trans (ParamKind.ofDirective?_eq_some_iff.mpr h)
    exact ⟨p, hr⟩
  case text h     => obtain h | h | h := h <;> simp [h, ParamKind.ofDirective?] at hkind
  case env h _    => simp [h, ParamKind.ofDirective?] at hkind
  case aliases h  => simp [h, ParamKind.ofDirective?] at hkind
  case before h _ => simp [h, ParamKind.ofDirective?] at hkind
  case after h _  => simp [h, ParamKind.ofDirective?] at hkind

theorem exists_binding (h : Of ds c) (hd : d ∈ ds) (hk : d.kind = .env) :
    ∃ e, d.binding? = some e := by
  refine h.of_mem (P := fun _ => ∃ e, d.binding? = some e) hd (by simp [hk]) ?_ fun h _ => h
  intro c c' ha
  cases ha
  case env v t _ he => exact ⟨⟨v, t, d.line⟩, by simp [Directive.binding?, hk, he]⟩
  case text h      => simp [hk] at h
  case param k h _ => cases k <;> simp [hk, ParamKind.directive] at h
  case aliases h   => simp [hk] at h
  case before h _  => simp [hk] at h
  case after h _   => simp [hk] at h

theorem mem_aliases (h : Of ds c) (hd : d ∈ ds) (hk : d.kind = .aliases) {w : List Char}
    (hw : w ∈ Directive.aliasNames d.text) : ∃ a ∈ c.aliases, a.1 = String.ofList w := by
  refine h.of_mem (P := fun c => ∃ a ∈ c.aliases, a.1 = String.ofList w) hd (by simp [hk]) ?add ?keep
  case add =>
    intro c c' ha
    cases ha
    case aliases h =>
      refine ⟨(String.ofList w, d.line), List.mem_append_right _ ?_, rfl⟩
      exact List.mem_map_of_mem hw
    case text h      => simp [hk] at h
    case param k h _ => cases k <;> simp [hk, ParamKind.directive] at h
    case env h _     => simp [hk] at h
    case before h _  => simp [hk] at h
    case after h _   => simp [hk] at h
  case keep =>
    rintro c c' e ⟨a, hm, he⟩ ha
    cases ha
    case aliases => exact ⟨a, List.mem_append_left _ hm, he⟩
    all_goals exact ⟨a, hm, he⟩

theorem before_eq (h : Of ds c) (hd : d ∈ ds) (hk : d.kind = .before) : c.before = some d.text := by
  refine h.of_mem (P := fun c => c.before = some d.text) hd (by simp [hk]) ?add ?keep
  case add =>
    intro c c' ha
    cases ha
    case before      => rfl
    case text h      => simp [hk] at h
    case param k h _ => cases k <;> simp [hk, ParamKind.directive] at h
    case env h _     => simp [hk] at h
    case aliases h   => simp [hk] at h
    case after h _   => simp [hk] at h
  case keep =>
    intro c c' e hc ha
    cases ha
    case before hb => simp [hc] at hb
    all_goals exact hc

theorem after_eq (h : Of ds c) (hd : d ∈ ds) (hk : d.kind = .after) : c.after = some d.text := by
  refine h.of_mem (P := fun c => c.after = some d.text) hd (by simp [hk]) ?add ?keep
  case add =>
    intro c c' ha
    cases ha
    case after       => rfl
    case text h      => simp [hk] at h
    case param k h _ => cases k <;> simp [hk, ParamKind.directive] at h
    case env h _     => simp [hk] at h
    case aliases h   => simp [hk] at h
    case before h _  => simp [hk] at h
  case keep =>
    intro c c' e hc ha
    cases ha
    case after ha => simp [hc] at ha
    all_goals exact hc

end Contents.Of

namespace Builder

variable {es : List EnvBinding} {ps : List Param} {p : Param} {i : Nat} {v : String}

theorem forall_mem_insert {P : Param → Prop} (hp : P p) (hps : ∀ q ∈ ps, P q) :
    ∀ q ∈ p.insert ps, P q := by
  intro q hq
  rcases List.mem_cons.mp ((p.insert_perm ps).mem_iff.mp hq) with rfl | hq
  case inl => exact hp
  case inr => exact hps q hq

-- The variable that is bound last to the parameter at a place.
def boundVar? (es : List EnvBinding) (ps : List Param) (i : Nat) : Option String :=
  (es.filter fun e => ps.findIdx? (·.answersTo e.target) = some i).getLast?.map (·.envVar)

theorem getElem?_modifyFirst {α : Type} {q : α → Bool} {f : α → α} {as : List α} :
    (modifyFirst q f as)[i]? =
      as[i]?.map fun a => if as.findIdx? q = some i then f a else a := by
  induction as generalizing i
  case nil => simp [modifyFirst]
  case cons a as hi =>
    by_cases hq : q a
    case pos => cases i <;> simp [modifyFirst, hq, List.findIdx?_cons]
    case neg => cases i <;> simp [modifyFirst, hq, List.findIdx?_cons, hi]

theorem forall_mem_modifyFirst {α : Type} {P : α → Prop} {f : α → α} {q : α → Bool} {as : List α}
    (h : ∀ a ∈ as, P a) (hf : ∀ a, P a → P (f a)) : ∀ a ∈ modifyFirst q f as, P a := by
  induction as with
  | nil => exact h
  | cons a as hi =>
    have ⟨ha, has⟩ := List.forall_mem_cons.mp h
    unfold modifyFirst
    split
    case isTrue  => exact List.forall_mem_cons.mpr ⟨hf a ha, has⟩
    case isFalse => exact List.forall_mem_cons.mpr ⟨ha, hi has⟩

theorem forall_mem_bindEnv {P : Param → Prop}
    (hes : ∀ e ∈ es, ∀ p, P p → P { p with envVar := some e.envVar }) (hps : ∀ p ∈ ps, P p) :
    ∀ p ∈ (bindEnv es ps).1, P p := by
  induction es generalizing ps with
  | nil => exact hps
  | cons e es hi =>
    have ⟨he, hes⟩ := List.forall_mem_cons.mp hes
    unfold bindEnv
    split
    case h_1 => exact hi hes hps
    case h_2 => exact hi hes (forall_mem_modifyFirst hps he)

theorem line_of_mem_bindEnv {x : Diagnostic} (h : x ∈ (bindEnv es ps).2) :
    ∃ e ∈ es, x.line = e.line := by
  induction es generalizing ps with
  | nil => cases h
  | cons e es hi =>
    have hrest {ps : List Param} (h : x ∈ (bindEnv es ps).2) : ∃ e' ∈ e :: es, x.line = e'.line :=
      have ⟨e', he', hl⟩ := hi h
      ⟨e', List.mem_cons_of_mem e he', hl⟩
    unfold bindEnv at h
    split at h
    case h_1 =>
      rcases List.mem_cons.mp h with rfl | h
      case inl => exact ⟨e, List.mem_cons_self, rfl⟩
      case inr => exact hrest h
    case h_2 =>
      rcases List.mem_append.mp h with h | h
      case inr => exact hrest h
      case inl =>
        refine ⟨e, List.mem_cons_self, ?_⟩
        split at h
        case h_2 => cases h
        case h_1 =>
          split at h
          case isTrue  => exact List.mem_singleton.mp h ▸ rfl
          case isFalse => cases h

-- Variables do not change what a parameter answers to.
theorem findIdx?_modifyFirst {q : Param → Bool} {name : String} {o : Option String} :
    (modifyFirst q ({ · with envVar := o }) ps).findIdx? (·.answersTo name) =
      ps.findIdx? (·.answersTo name) := by
  induction ps
  case nil => rfl
  case cons p ps hi =>
    by_cases hq : q p
    case pos => simp [modifyFirst, hq, List.findIdx?_cons, Param.answersTo, Param.forms]
    case neg => simp [modifyFirst, hq, List.findIdx?_cons, hi]

theorem boundVar?_modifyFirst {q : Param → Bool} {o : Option String} :
    boundVar? es (modifyFirst q ({ · with envVar := o }) ps) i = boundVar? es ps i := by
  simp [boundVar?, findIdx?_modifyFirst]

-- Binding changes variables only, and the last one counts.
theorem getElem?_bindEnv :
    (bindEnv es ps).1[i]? =
      ps[i]?.map fun p => { p with envVar := (boundVar? es ps i).orElse fun _ => p.envVar } := by
  induction es generalizing ps
  case nil => simp [bindEnv, boundVar?]
  case cons e es hi =>
    unfold bindEnv
    split
    case h_1 h =>
      have hn : ps.findIdx? (·.answersTo e.target) = none := by
        simpa [List.findIdx?_eq_none_iff] using h
      simp [hi, boundVar?, hn]
    case h_2 q h =>
      simp only [hi, boundVar?_modifyFirst, getElem?_modifyFirst, Option.map_map]
      congr 1
      funext p
      by_cases hp : ps.findIdx? (·.answersTo e.target) = some i
      case neg => simp [boundVar?, hp]
      case pos =>
        simp only [boundVar?, Function.comp_apply, List.filter_cons, hp, decide_true, if_true,
          List.getLast?_cons]
        cases (es.filter fun e => ps.findIdx? (·.answersTo e.target) = some i).getLast? <;> simp

theorem findIdx?_bindEnv {name : String} :
    (bindEnv es ps).1.findIdx? (·.answersTo name) = ps.findIdx? (·.answersTo name) := by
  induction es generalizing ps
  case nil => rfl
  case cons e es hi =>
    unfold bindEnv
    split
    case h_1 => exact hi
    case h_2 => simp only [hi, findIdx?_modifyFirst]

-- Two names mean the same parameter if their first answers are equal.
theorem findIdx?_eq_of_find?_eq {n m : String} (hn : ps.find? (·.answersTo n) = some p)
    (hm : ps.find? (·.answersTo m) = some p) :
    ps.findIdx? (·.answersTo n) = ps.findIdx? (·.answersTo m) := by
  rw [List.find?_eq_bind_findIdx?_getElem?, Option.bind_eq_some_iff] at hn hm
  have ⟨i, hi, hpi⟩ := hn
  have ⟨j, hj, hpj⟩ := hm
  have ⟨hil, hia, hil'⟩ := List.findIdx?_eq_some_iff_getElem.mp hi
  have ⟨hjl, hja, hjl'⟩ := List.findIdx?_eq_some_iff_getElem.mp hj
  have hgi : ps[i] = p := by simpa [List.getElem?_eq_getElem hil] using hpi
  have hgj : ps[j] = p := by simpa [List.getElem?_eq_getElem hjl] using hpj
  have hij : i = j := by
    apply Nat.le_antisymm
    · exact Nat.le_of_not_lt fun h => hil' j h (hgj ▸ hgi ▸ hia)
    · exact Nat.le_of_not_lt fun h => hjl' i h (hgi ▸ hgj ▸ hja)
  rw [hi, hj, hij]

theorem envVar_bindEnv {e : EnvBinding}
    (h : (es.filter fun e => (bindEnv es ps).1.find? (·.answersTo e.target) = some p).getLast? = some e) :
    p.envVar = some e.envVar := by
  have hmem := List.mem_of_getLast? h
  have hp : (bindEnv es ps).1.find? (·.answersTo e.target) = some p := by
    simpa using (List.mem_filter.mp hmem).2
  have ⟨i, hi, hpi⟩ := Option.bind_eq_some_iff.mp (List.find?_eq_bind_findIdx?_getElem? ▸ hp)
  have hfilter : (es.filter fun e => (bindEnv es ps).1.find? (·.answersTo e.target) = some p) =
      es.filter fun e => ps.findIdx? (·.answersTo e.target) = some i := by
    apply List.filter_congr
    intro e' _
    have hbind : (bindEnv es ps).1.findIdx? (·.answersTo e'.target) =
        ps.findIdx? (·.answersTo e'.target) := findIdx?_bindEnv
    rw [← hbind, decide_eq_decide]
    constructor
    · intro h'
      rw [findIdx?_eq_of_find?_eq h' hp, hi]
    · intro h'
      rw [List.find?_eq_bind_findIdx?_getElem?, h']
      exact hpi
  have hv : boundVar? es ps i = some e.envVar := by
    rw [boundVar?, ← hfilter, h]
    rfl
  rw [getElem?_bindEnv, hv] at hpi
  have ⟨q, _, hq⟩ := Option.map_eq_some_iff.mp hpi
  exact hq ▸ rfl

end Builder

end ShellArgs
