import ShellArgs.Proofs.Completion.Given

-- Short flags, and an option behind them with the text of its value, can be given as one word. A
-- cursor comes to the same place as if each of them were a word of its own.

namespace ShellArgs

open Outcome

theorem Param.valuesPerOccurrence_pos {p : Param} {c : Command} (hp : p ∈ c.options)
    (hk : p.isFlag = false) : 0 < p.valuesPerOccurrence := by
  have hpos : p.isPositional = false := by simpa using (List.mem_filter.mp hp).2
  cases h : p.kind
  case option     => simp only [valuesPerOccurrence, h]; omega
  case flag       => simp [isFlag, h] at hk
  case positional => simp [isPositional, h] at hpos

-- A character that means an option or flag of a command, and nothing else in a word.
structure Command.Short (c : Command) (x : Char) (p : Param) : Prop where
  find   : c.findOption? (String.ofList ['-', x]) = some p
  equals : x ≠ '='
  dash   : x ≠ '-'

namespace Completion

-- Flags, and an option with the text of its value.
structure Bundle where
  flags : List Char
  option : Option (Char × String) := none

namespace Bundle

def characters (b : Bundle) : List Char :=
  b.flags ++ match b.option with
    | some (o, value) => o :: value.toList
    | none            => []

-- All in one word.
def word (b : Bundle) : String :=
  String.ofList ('-' :: b.characters)

-- Word by word. A value without any text is none, so that the option takes one of the words that
-- follow.
def words (b : Bundle) : List String :=
  b.flags.map (fun x => String.ofList ['-', x]) ++ match b.option with
    | some (o, value) => String.ofList ['-', o] :: if value = "" then [] else [value]
    | none            => []

structure Fits (b : Bundle) (c : Command) : Prop where
  flags  : ∀ x ∈ b.flags, ∃ p, c.Short x p ∧ p.isFlag
  option : ∀ o value, b.option = some (o, value) → ∃ p, c.Short o p ∧ p.isFlag = false

theorem Fits.exists_cons {b : Bundle} {c : Command} (h : b.Fits c) (hn : b.characters ≠ []) :
    ∃ x cs, b.characters = x :: cs ∧ x ≠ '-' := by
  obtain ⟨flags, option⟩ := b
  cases flags
  case cons x flags =>
    have ⟨p, hx, _⟩ := h.flags x List.mem_cons_self
    exact ⟨x, _, rfl, hx.dash⟩
  case nil =>
    cases option
    case none => exact absurd rfl hn
    case some o =>
      have ⟨p, ho, _⟩ := h.option o.1 o.2 rfl
      exact ⟨o.1, _, rfl, ho.dash⟩

end Bundle

namespace Cursor

variable {t : Tree} {k : Cursor} {p : Param} {x : Char} {b : Bundle}

theorem step_short (ho : k.Open) (h : k.command.Short x p) :
    step t k (String.ofList ['-', x]) = .ok (k.give p 0) := by
  have hl : (String.ofList ['-', x]).toList = '-' :: x :: [] := String.toList_ofList
  have he : '=' ∉ (String.ofList ['-', x]).toList := by simp [h.equals.symm]
  rw [step_dashed ho hl (ne_dashes hl (.inl h.dash))]
  simp only [dashed, Text.cut_of_not_mem he, h.find]
  rfl

-- A value that is a word of its own counts like one that is attached.
theorem step_give (ho : k.Open) (hk : p.isFlag = false) (hv : 0 < p.valuesPerOccurrence)
    (value : String) : step t (k.give p 0) value = .ok (k.give p 1) := by
  have hzero : ¬ p.valuesPerOccurrence ≤ 0 := by omega
  by_cases hone : p.valuesPerOccurrence ≤ 1
  case pos => simp [give, hk, hzero, hone, step, takeValue, use, ho.awaited]
  case neg => simp [give, hk, hzero, hone, step, takeValue]

theorem foldlM_words (ho : k.Open) (h : b.Fits k.command) :
    b.words.foldlM (step t) k = .ok (k.cluster b.characters) := by
  obtain ⟨flags, option⟩ := b
  induction flags generalizing k
  case nil =>
    cases option
    case none => rfl
    case some o =>
      obtain ⟨o, value⟩ := o
      obtain ⟨p, hshort, hk⟩ := h.option o value rfl
      have hv := Param.valuesPerOccurrence_pos (List.mem_of_find?_eq_some hshort.find) hk
      simp only [Bundle.words, Bundle.characters, List.map_nil, List.nil_append, List.foldlM_cons,
        step_short ho hshort, ok_bind]
      by_cases hvalue : value = ""
      case pos => simp [hvalue, cluster_singleton hshort.find]
      case neg =>
        have hne : value.toList ≠ [] := String.toList_eq_nil_iff.not.mpr hvalue
        simp [hvalue, step_give ho hk hv, cluster_option hshort.find hk hne]
  case cons x flags hi =>
    obtain ⟨p, hshort, hk⟩ := h.flags x List.mem_cons_self
    have ho' : (k.use p).Open := ⟨ho.awaited, ho.options⟩
    have h' : Bundle.Fits ⟨flags, option⟩ (k.use p).command :=
      ⟨fun y hy => h.flags y (List.mem_cons_of_mem x hy), h.option⟩
    have hwords : Bundle.words ⟨x :: flags, option⟩ =
        String.ofList ['-', x] :: Bundle.words ⟨flags, option⟩ := rfl
    have hcharacters : Bundle.characters ⟨x :: flags, option⟩ =
        x :: Bundle.characters ⟨flags, option⟩ := rfl
    rw [hwords, hcharacters, List.foldlM_cons, step_short ho hshort, give_flag hk, ok_bind,
      hi ho' h', cluster_flag hshort.find hk]

theorem step_word_of_bundle (ho : k.Open) (h : b.Fits k.command) (hb : b.characters ≠ [])
    (hn : k.command.findOption? (Text.cut '=' b.word).1 = none) :
    step t k b.word = .ok (k.cluster b.characters) := by
  obtain ⟨x, cs, hcs, hx⟩ := h.exists_cons hb
  have hl : b.word.toList = '-' :: x :: cs := by rw [Bundle.word, String.toList_ofList, hcs]
  rw [step_dashed ho hl (ne_dashes hl (.inl hx)), dashed_of_cut_eq_none hn hl hx, hcs]

end Cursor

-- It does not matter what text follows an option in its word, as long as the word is not taken for
-- a form, alone or with a value attached.
theorem replay_bundle {t : Tree} {before : List String} {s : Cursor} {b : Bundle}
    (hs : replay t before = .ok s) (ho : s.Open) (hb : b.Fits s.command)
    (hl : 2 ≤ b.characters.length) (hn : s.command.findOption? (Text.cut '=' b.word).1 = none) :
    ∃ s', replay t (before ++ [b.word]) = .ok s' ∧ replay t (before ++ b.words) = .ok s' := by
  have hne : b.characters ≠ [] := List.ne_nil_of_length_pos (by omega)
  refine ⟨s.cluster b.characters, ?_, ?_⟩
  · simp [replay_append, hs, Cursor.step_word_of_bundle ho hb hne hn]
  · rw [replay_append, hs, ok_bind, Cursor.foldlM_words ho hb]

-- An option that takes two values, the first one in its word and with an equals sign and a dash.
theorem replay_bundle_values :
    let a : Param := { name := "a", kind := .flag, short := some "-a" }
    let b : Param := { name := "b", kind := .flag, short := some "-b" }
    let o : Param := { name := "o", kind := .option, short := some "-o", valueNames := ["X", "Y"] }
    let root : Command := { index := 0, params := [a, b, o] }
    let t : Tree := { nodes := [root] }
    let bundle : Bundle := { flags := ['a', 'b'], option := some ('o', "=-v") }
    bundle.word = "-abo=-v" ∧ bundle.words = ["-a", "-b", "-o", "=-v"] ∧
      replay t ["file"] = .ok { command := root, positionals := 1 } ∧ bundle.Fits root ∧
      root.findOption? (Text.cut '=' bundle.word).1 = none ∧
      ∃ s, replay t (["file"] ++ [bundle.word]) = .ok s ∧ replay t (["file"] ++ bundle.words) = .ok s ∧
        s.used = ["a", "b", "o"] ∧ s.awaited = some ⟨o, 1⟩ := by
  intro a b o root t bundle
  have hs : replay t ["file"] = .ok { command := root, positionals := 1 } := by decide
  have hb : bundle.Fits root := by
    constructor
    case flags =>
      intro x hx
      simp only [bundle, List.mem_cons, List.not_mem_nil, or_false] at hx
      rcases hx with rfl | rfl
      · exact ⟨a, ⟨by decide, by decide, by decide⟩, rfl⟩
      · exact ⟨b, ⟨by decide, by decide, by decide⟩, rfl⟩
    case option =>
      rintro _ _ ⟨⟩
      exact ⟨o, ⟨by decide, by decide, by decide⟩, rfl⟩
  have hn : root.findOption? (Text.cut '=' bundle.word).1 = none := by decide
  have ⟨s, hword, hwords⟩ := replay_bundle hs ⟨rfl, rfl⟩ hb (by decide) hn
  have he : (replay t ["file", "-abo=-v"]).toOption.any fun s =>
      s.used = ["a", "b", "o"] ∧ s.awaited = some ⟨o, 1⟩ := by
    decide
  have hs' : replay t ["file", "-abo=-v"] = .ok s := hword
  simp only [hs', Except.toOption, Option.any_some, decide_eq_true_eq] at he
  exact ⟨rfl, by decide, hs, hb, hn, s, hword, hwords, he⟩

end Completion

end ShellArgs
