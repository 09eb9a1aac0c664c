import Mathlib.Data.List.Chain
import ShellArgs.Proofs.Completion.Blocks

-- What putting the blocks of a line together does to its text and to its cursor, and that it is
-- done once: a line that comes of it has no block of more than one word.

namespace ShellArgs.Completion

-- The words that can be one word: a single one, an option up to its `=`, an option with its value.
inductive Block : List String → Prop
  | word (w : String) : Block [w]
  | equals (h : opensBlock w) : Block [w, "="]
  | value (h : opensBlock w) (hv : v ≠ "=") : Block [w, "=", v]

-- A line has one word for each block of the given words, and its cursor is at the block with the
-- word that the given cursor is at. A cursor that is at no word is as far away from the line.
structure Rejoined (ws : List String) (cursor : Int) (bs : List (List String)) (l : Line) :
    Prop where
  flatten : bs.flatten = ws
  block : ∀ b ∈ bs, Block b
  words : l.words = bs.map String.join
  within : 0 ≤ cursor → cursor < ws.length → ∃ front b rest, ∃ n : Nat, n < b.length ∧
    bs = front ++ b :: rest ∧ cursor = front.flatten.length + n ∧
      l.cursor = front.length ∧ l.split = decide (0 < n)
  beyond : ws.length ≤ cursor →
    l.cursor = l.words.length + (cursor - ws.length) ∧ l.split = false
  before : cursor < 0 → l.cursor = cursor ∧ l.split = false

-- No word of the line is the `=` of the option before it.
def Settled (ws : List String) : Prop :=
  ws.IsChain fun w e => ¬ (opensBlock w ∧ e = "=")

-- How the words can fall into blocks, wherever the cursor is.
inductive Grouped : List String → List (List String) → Prop
  | nil : Grouped [] []
  | word (h : ¬ (opensBlock w ∧ ws.head? = some "=")) (hg : Grouped ws bs) :
      Grouped (w :: ws) ([w] :: bs)
  | equals (h : opensBlock w) (hg : Grouped ws bs) : Grouped (w :: "=" :: ws) ([w, "="] :: bs)
  | value (h : opensBlock w) (hv : v ≠ "=") (hg : Grouped ws bs) :
      Grouped (w :: "=" :: v :: ws) ([w, "=", v] :: bs)

section Blocks

variable {w e v j : String} {b ws : List String} {bs : List (List String)} {cursor : Int}

theorem grouped_blocks (cursor : Int) (ws : List String) : Grouped ws (blocks cursor ws) := by
  fun_induction blocks cursor ws
  case case1 => exact .nil
  case case2 => exact .word (by simp) .nil
  case case3 ho =>
    obtain ⟨rfl, hw⟩ := (Bool.and_eq_true_iff.trans (and_congr_left' decide_eq_true_iff)).mp ho
    exact .equals hw .nil
  case case4 ho _ _ hv hi =>
    obtain ⟨rfl, hw⟩ := (Bool.and_eq_true_iff.trans (and_congr_left' decide_eq_true_iff)).mp ho
    exact .value hw (by simpa using (Bool.and_eq_true_iff.mp hv).2) hi
  case case5 ho _ _ _ hi =>
    obtain ⟨rfl, hw⟩ := (Bool.and_eq_true_iff.trans (and_congr_left' decide_eq_true_iff)).mp ho
    exact .equals hw hi
  case case6 ho hi => exact .word (by simpa [and_comm] using ho) hi

theorem Grouped.block (h : Grouped ws bs) : ∀ b ∈ bs, Block b := by
  induction h
  case nil             => exact List.forall_mem_nil _
  case word hi         => exact List.forall_mem_cons.mpr ⟨.word _, hi⟩
  case equals hw _ hi  => exact List.forall_mem_cons.mpr ⟨.equals hw, hi⟩
  case value hw hv _ hi => exact List.forall_mem_cons.mpr ⟨.value hw hv, hi⟩

-- A word with an `=` opens no block.
theorem settled_cons (hw : '=' ∈ w.toList) (h : Settled ws) : Settled (w :: ws) :=
  List.isChain_cons.mpr ⟨fun _ _ ho => not_mem_of_opensBlock ho.1 hw, h⟩

-- Only an `=` by itself is put together to an `=`.
theorem join_ne_equals (h : opensBlock w) (ws : List String) : String.join (w :: ws) ≠ "=" := by
  intro he
  have ⟨hw, _⟩ := Bool.and_eq_true_iff.mp h
  have hdash := Text.startsWith_trans hw (Text.startsWith_append w (String.join ws))
  rw [← String.join_cons, he] at hdash
  cases hdash

theorem Grouped.settled (h : Grouped ws bs) : Settled (bs.map String.join) := by
  induction h
  case nil       => exact .nil
  case equals hi => exact settled_cons (by simp) hi
  case value hi  => exact settled_cons (by simp) hi
  case word hw hg hi =>
    refine List.isChain_cons.mpr ⟨fun j hj ⟨ho, he⟩ => hw ⟨by simpa using ho, ?_⟩, hi⟩
    subst he
    cases hg
    case nil          => cases hj
    case word         => simpa using hj
    case equals ho _  => cases join_ne_equals ho _ (Option.some.inj hj)
    case value ho _ _ => cases join_ne_equals ho _ (Option.some.inj hj)

theorem blocks_of_settled (h : Settled ws) (cursor : Int) : blocks cursor ws = ws.map ([·]) := by
  induction ws generalizing cursor
  case nil => rfl
  case cons w ws hi =>
    have ⟨hw, hs⟩ := List.isChain_cons.mp h
    cases ws
    case nil       => rfl
    case cons e ws =>
      rw [blocks_single (hw e rfl), hi hs, List.map_cons, List.map_cons, List.map_cons]

end Blocks

section Locate

variable {bs : List (List String)} {n : Nat}

-- A place that is not beyond the last block is in one of them.
theorem exists_block (h : n < bs.flatten.length) : ∃ front b rest, ∃ m < b.length,
    bs = front ++ b :: rest ∧ n = front.flatten.length + m := by
  induction bs generalizing n
  case nil => cases h
  case cons b bs hi =>
    by_cases hn : n < b.length
    case pos => exact ⟨[], b, bs, n, hn, rfl, by simp⟩
    case neg =>
      rw [List.flatten_cons, List.length_append] at h
      obtain ⟨front, c, rest, m, hm, rfl, hk⟩ := hi (n := n - b.length) (by omega)
      refine ⟨b :: front, c, rest, m, hm, rfl, ?_⟩
      rw [List.flatten_cons, List.length_append]
      omega

theorem locate_words (ws : List String) (n : Nat) : locate (ws.map ([·])) n = (n, false) := by
  induction ws generalizing n
  case nil => rfl
  case cons w ws hi =>
    rw [List.map_cons, locate, List.length_singleton]
    split
    case isTrue hn => simp [Nat.lt_one_iff.mp hn]
    case isFalse => simp only [hi, Nat.sub_add_cancel (by omega : 1 ≤ n)]

end Locate

theorem joinEquals_of_neg {cursor : Int} (h : cursor < 0) (ws : List String) :
    joinEquals ws cursor = ⟨(blocks cursor ws).map String.join, cursor, false⟩ := by
  rw [joinEquals, if_pos h]

theorem joinEquals_of_nonneg (ws : List String) (n : Nat) : joinEquals ws n = {
    words := (blocks n ws).map String.join
    cursor := (locate (blocks n ws) n).1
    split := (locate (blocks n ws) n).2
  } := by
  rw [joinEquals, if_neg (by omega), Int.toNat_natCast]

theorem rejoined_joinEquals (ws : List String) (cursor : Int) :
    Rejoined ws cursor (blocks cursor ws) (joinEquals ws cursor) := by
  constructor
  case flatten => exact flatten_blocks cursor ws
  case block   => exact (grouped_blocks cursor ws).block
  case words   => rfl
  case before => exact fun h => by simp [joinEquals_of_neg h]
  case within =>
    intro h hlt
    lift cursor to Nat using h
    rw [← flatten_blocks cursor ws] at hlt
    obtain ⟨front, b, rest, n, hn, hbs, hk⟩ := exists_block (Int.ofNat_lt.mp hlt)
    have hloc := locate_append front rest hn
    rw [← hbs, ← hk] at hloc
    rw [joinEquals_of_nonneg, hloc]
    exact ⟨front, b, rest, n, hn, hbs, by omega, rfl, rfl⟩
  case beyond =>
    intro h
    lift cursor to Nat using by omega
    have hlen : (blocks cursor ws).flatten.length = ws.length := by rw [flatten_blocks]
    rw [joinEquals_of_nonneg, locate_beyond (by omega), hlen]
    refine ⟨?_, rfl⟩
    simp only [List.length_map]
    omega

theorem joinEquals_of_settled {ws : List String} (h : Settled ws) (cursor : Int) :
    joinEquals ws cursor = ⟨ws, cursor, false⟩ := by
  have hwords : (ws.map ([·])).map String.join = ws := by simp [Function.comp_def]
  by_cases hc : cursor < 0
  case pos => rw [joinEquals_of_neg hc, blocks_of_settled h, hwords]
  case neg =>
    lift cursor to Nat using by omega
    rw [joinEquals_of_nonneg, blocks_of_settled h, hwords, locate_words]

-- The words that readline took apart are put together as wholes and in order, the cursor goes with
-- them, and there is nothing left to be done.
theorem joinEquals_keeps (ws : List String) (cursor : Int) :
    (∃ bs, Rejoined ws cursor bs (joinEquals ws cursor)) ∧
      joinEquals (joinEquals ws cursor).words (joinEquals ws cursor).cursor =
        { joinEquals ws cursor with split := false } :=
  ⟨⟨_, rejoined_joinEquals ws cursor⟩, joinEquals_of_settled (grouped_blocks cursor ws).settled _⟩

end ShellArgs.Completion
