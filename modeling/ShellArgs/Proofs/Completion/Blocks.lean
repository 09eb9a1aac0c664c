import ShellArgs.Completion.Words

-- How far the words behind the cursor reach. The block at the cursor may go on behind it, but no
-- further than over an `=` and a value. The blocks before it, and where it begins, do not depend on
-- what comes later.

namespace ShellArgs.Completion

-- The words that join a block that begins right before them.
def attached : List String → List String
  | []      => []
  | e :: vs =>
    if e = "=" then
      match vs with
      | []     => [e]
      | v :: _ => if v = "=" then [e] else [e, v]
    else []

-- Whether a word opens a block where it stands, after other words of which the nearest comes first.
-- The value in a block opens none itself.
def opensAfter : String → List String → Bool
  | w, e :: v :: before => opensBlock w && !(e == "=" && opensAfter v before)
  | w, _                => opensBlock w

def isOpen (words : List String) (cursor : Nat) : Bool :=
  words[cursor]?.any (opensAfter · (words.take cursor).reverse)

-- The text that later words add to the word at a place.
def joined (words : List String) (cursor : Nat) (later : List String) : String :=
  if isOpen words cursor then String.join (attached later) else ""

theorem join_attached (later : List String) :
    String.join (attached later) = "" ∨ ∃ v, String.join (attached later) = "=" ++ v := by
  fun_cases attached later
  case case1 => exact .inl rfl
  case case2 => exact .inr ⟨"", rfl⟩
  case case3 => exact .inr ⟨"", rfl⟩
  case case4 v _ _ => exact .inr ⟨v, by simp [String.join]⟩
  case case5 => exact .inl rfl

-- A place within a block, counted from the first of its words.
theorem locate_append {b : List String} {n : Nat} (front rest : List (List String))
    (h : n < b.length) :
    locate (front ++ b :: rest) (front.flatten.length + n) = (front.length, decide (0 < n)) := by
  induction front
  case nil => simp [locate, h]
  case cons a front hi =>
    have hlen : ¬ a.length + (front.flatten.length + n) < a.length := by omega
    rw [List.flatten_cons, List.length_append, Nat.add_assoc, List.cons_append, locate, if_neg hlen,
      Nat.add_sub_cancel_left, hi]
    rfl

-- A place beyond the last block.
theorem locate_beyond {bs : List (List String)} {n : Nat} (h : bs.flatten.length ≤ n) :
    locate bs n = (bs.length + (n - bs.flatten.length), false) := by
  induction bs generalizing n
  case nil => simp [locate]
  case cons b bs hi =>
    rw [List.flatten_cons, List.length_append] at h ⊢
    rw [locate, if_neg (by omega), hi (by omega), List.length_cons]
    simp only [Prod.mk.injEq, and_true]
    omega

theorem ne_equals {w : String} (h : '=' ∉ w.toList) : w ≠ "=" := by
  rintro rfl
  simp at h

theorem not_mem_of_opensBlock {a : String} (h : opensBlock a) : '=' ∉ a.toList := by
  have ⟨_, h⟩ := Bool.and_eq_true_iff.mp h
  simpa using h

section Blocks

variable {cursor : Int} {w e v : String} {ws : List String}

-- A word is a block of its own if it opens none, or if no `=` follows.
theorem blocks_single (h : ¬ (opensBlock w ∧ e = "=")) :
    blocks cursor (w :: e :: ws) = [w] :: blocks (cursor - 1) (e :: ws) := by
  rw [blocks.eq_def]
  simp only [Bool.and_eq_true, decide_eq_true_eq, and_comm (a := e = "="), h, if_false]

theorem blocks_pair (h : opensBlock w) : blocks cursor [w, "="] = [[w, "="]] := by
  simp [blocks, h]

theorem blocks_value (h : opensBlock w) (hc : cursor ≠ 1) (hv : v ≠ "=") :
    blocks cursor (w :: "=" :: v :: ws) = [w, "=", v] :: blocks (cursor - 3) ws := by
  simp [blocks, h, hc, hv]

theorem blocks_equals (h : opensBlock w) (hc : cursor = 1 ∨ v = "=") :
    blocks cursor (w :: "=" :: v :: ws) = [w, "="] :: blocks (cursor - 2) (v :: ws) := by
  rw [blocks.eq_def]
  cases hc
  case inl hc => simp [h, hc]
  case inr hv => simp [h, hv]

-- A block that begins at the cursor takes what is attached.
theorem blocks_zero (w : String) (later : List String) :
    ∃ rest, blocks 0 (w :: later) = (w :: if opensBlock w then attached later else []) :: rest := by
  cases hw : opensBlock w
  case false =>
    cases later
    case nil       => exact ⟨[], rfl⟩
    case cons e vs => exact ⟨_, blocks_single (by simp [hw])⟩
  case true =>
    fun_cases attached later
    case case1 => exact ⟨[], rfl⟩
    case case2 => exact ⟨[], blocks_pair hw⟩
    case case3 => exact ⟨_, blocks_equals hw (.inr rfl)⟩
    case case4 hv => exact ⟨_, blocks_value hw (by decide) hv⟩
    case case5 he => exact ⟨_, blocks_single (by simp [he])⟩

end Blocks

section OpensAfter

variable {w a e v : String}

theorem opensBlock_equals : opensBlock "=" = false :=
  rfl

theorem opensAfter_equals (before : List String) : opensAfter "=" before = false := by
  cases before
  case nil => rfl
  case cons e before =>
    cases before
    case nil  => rfl
    case cons => rfl

theorem opensBlock_of_opensAfter {before : List String} (h : opensAfter w before) : opensBlock w := by
  unfold opensAfter at h
  split at h
  case h_1 => exact (Bool.and_eq_true_iff.mp h).1
  case h_2 => exact h

-- Words that are further away count for no more than what they mean to the nearest two.
theorem opensAfter_append (far far' : List String) (h : ∀ w, opensAfter w far = opensAfter w far')
    (h' : ∀ w e, opensAfter w (e :: far) = opensAfter w (e :: far')) (w : String) :
    (before : List String) → opensAfter w (before ++ far) = opensAfter w (before ++ far')
  | []               => h w
  | [e]              => h' w e
  | e :: v :: before => by
    have hi := opensAfter_append far far' h h' v before
    simp only [List.cons_append, opensAfter, hi]

theorem opensAfter_single (h : ¬ (opensBlock a ∧ e = "=")) (before : List String) :
    opensAfter w (before ++ [e, a]) = opensAfter w (before ++ [e]) := by
  refine opensAfter_append _ _ (fun w => ?_) (fun w x => ?_) w before
  case refine_1 =>
    cases ha : opensBlock a
    case false => simp [opensAfter, ha]
    case true  => simp_all [opensAfter]
  case refine_2 => simp [opensAfter]

theorem opensAfter_pair (before : List String) :
    opensAfter w (before ++ ["=", "=", a]) = opensAfter w (before ++ ["="]) := by
  refine opensAfter_append _ _ (fun w => ?_) (fun w x => ?_) w before
  case refine_1 => simp [opensAfter, opensBlock_equals]
  case refine_2 => simp [opensAfter, opensBlock_equals]

theorem opensAfter_value (ha : opensBlock a) (hv : v ≠ "=") (before : List String) :
    opensAfter w (before ++ [v, "=", a]) = opensAfter w before := by
  have := opensAfter_append [v, "=", a] [] (fun w => ?_) (fun w x => ?_) w before
  case refine_1 => simp [opensAfter, hv]
  case refine_2 => simp [opensAfter, ha]
  rwa [List.append_nil] at this

end OpensAfter

-- The blocks in front of the cursor, and the part of the block at the cursor that is before it.
structure Cut (w : String) (before : List String) (front : List (List String))
    (inside : List String) : Prop where
  words : front.flatten ++ inside = before
  opens : opensAfter w before.reverse → inside = []
  line  : ∀ later, ∃ rest, blocks before.length (before ++ w :: later) =
    front ++ (inside ++ w :: if opensAfter w before.reverse then attached later else []) :: rest

namespace Cut

variable {w a e v : String} {before inside : List String} {front : List (List String)}

theorem nil (w : String) : Cut w [] [] [] where
  words := rfl
  opens := fun _ => rfl
  line later := by simpa [opensAfter] using blocks_zero w later

-- A block that ends before the cursor.
theorem cons {b : List String} (h : Cut w before front inside)
    (ho : opensAfter w (before.reverse ++ b.reverse) = opensAfter w before.reverse)
    (hb : ∀ later, blocks (before.length + b.length : Int) (b ++ (before ++ w :: later)) =
      b :: blocks (before.length + b.length - b.length : Int) (before ++ w :: later)) :
    Cut w (b ++ before) (b :: front) inside := by
  constructor
  case words => rw [List.flatten_cons, List.append_assoc, h.words]
  case opens => rw [List.reverse_append, ho]; exact h.opens
  case line =>
    intro later
    have ⟨rest, hr⟩ := h.line later
    have hb := hb later
    rw [Int.add_sub_cancel, hr] at hb
    exact ⟨rest, by rw [List.length_append, Nat.add_comm, Int.natCast_add, List.append_assoc, hb,
      List.reverse_append, ho, List.cons_append]⟩

theorem single (h : Cut w before front inside)
    (ha : ¬ (opensBlock a ∧ (before ++ [w]).head? = some "=")) :
    Cut w (a :: before) ([a] :: front) inside := by
  cases before
  case nil => exact cons (b := [a]) h rfl fun later => blocks_single (by simpa using ha)
  case cons e before =>
    have he : ¬ (opensBlock a ∧ e = "=") := by simpa using ha
    refine cons (b := [a]) h ?_ fun later => blocks_single he
    simpa using opensAfter_single he before.reverse

-- A block that ends at the cursor.
theorem last (ho : opensAfter w inside.reverse = false)
    (hb : ∀ later, ∃ rest, blocks inside.length (inside ++ w :: later) = (inside ++ [w]) :: rest) :
    Cut w inside [] inside where
  words := rfl
  opens h := by rw [ho] at h; cases h
  line later := by simpa [ho] using hb later

end Cut

theorem exists_cut (w : String) : (before : List String) → ∃ front inside, Cut w before front inside
  | [] => ⟨_, _, .nil w⟩
  | [a] => by
    by_cases h : opensBlock a ∧ w = "="
    case neg => exact ⟨_, _, .single (.nil w) (by simpa using h)⟩
    case pos =>
      obtain ⟨ha, rfl⟩ := h
      refine ⟨[], [a], .last (opensAfter_equals _) fun later => ?_⟩
      cases later
      case nil  => exact ⟨[], blocks_pair ha⟩
      case cons => exact ⟨_, blocks_equals ha (.inl rfl)⟩
  | [a, e] => by
    have ⟨_, _, he⟩ := exists_cut w [e]
    by_cases h : opensBlock a ∧ e = "="
    case neg => exact ⟨_, _, .single he (by simpa using h)⟩
    case pos =>
      obtain ⟨ha, rfl⟩ := h
      by_cases hw : w = "="
      case pos =>
        subst hw
        exact ⟨_, _, .cons (b := [a, "="]) (.nil _) (by simp only [opensAfter_equals]) fun later =>
          blocks_equals ha (.inr rfl)⟩
      case neg =>
        exact ⟨[], [a, "="], .last (by simp [opensAfter, ha]) fun later =>
          ⟨_, blocks_value ha (by simp) hw⟩⟩
  | a :: e :: v :: us => by
    by_cases h : opensBlock a ∧ e = "="
    case neg =>
      have ⟨_, _, he⟩ := exists_cut w (e :: v :: us)
      exact ⟨_, _, .single he (by simpa using h)⟩
    case pos =>
      obtain ⟨ha, rfl⟩ := h
      by_cases hv : v = "="
      case pos =>
        subst hv
        have ⟨_, _, hus⟩ := exists_cut w ("=" :: us)
        exact ⟨_, _, .cons (b := [a, "="]) hus (by simpa using opensAfter_pair us.reverse)
          fun later => blocks_equals ha (.inr rfl)⟩
      case neg =>
        have ⟨_, _, hus⟩ := exists_cut w us
        refine ⟨_, _, .cons (b := [a, "=", v]) hus (by simpa using opensAfter_value ha hv us.reverse)
          fun later => blocks_value ha ?_ hv⟩
        have : (us.length + [a, "=", v].length : Int) = us.length + 3 := rfl
        omega

theorem Cut.joinEquals_eq {w : String} {before inside : List String} {front : List (List String)}
    (h : Cut w before front inside) (later : List String) :
    ∃ rest, joinEquals (before ++ w :: later) before.length = {
      words := front.map String.join ++ (String.join (inside ++ [w]) ++
        if opensAfter w before.reverse then String.join (attached later) else "") :: rest
      cursor := front.length
      split := decide (inside ≠ [])
    } := by
  have ⟨rest, hr⟩ := h.line later
  have hlen : before.length = front.flatten.length + inside.length := by
    rw [← h.words, List.length_append]
  have hloc := locate_append (n := inside.length) front rest
    (b := inside ++ w :: if opensAfter w before.reverse then attached later else []) (by simp)
  refine ⟨rest.map String.join, ?_⟩
  rw [joinEquals, hr, if_neg (by omega), Int.toNat_natCast, hlen, hloc]
  by_cases ho : opensAfter w before.reverse <;>
    simp [ho, List.length_pos_iff, String.append_assoc]

end ShellArgs.Completion
