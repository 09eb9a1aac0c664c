import ShellArgs.Text.Cut

-- The words of a command line as readline hands them over. Readline takes the `=` in
-- `--option=value` for a word of its own, so that what the user sees as one word can come
-- as a block of up to three words.

namespace ShellArgs.Completion

def opensBlock (w : String) : Bool :=
  Text.startsWith w "-" && !w.toList.contains '='

-- `cursor` is the place of the word at the cursor relative to the words. A value is part of the block
-- unless the cursor is at the `=`.
def blocks (cursor : Int) : List String → List (List String)
  | []      => []
  | w :: ws =>
    match ws with
    | []      => [[w]]
    | e :: vs =>
      if e = "=" && opensBlock w then
        match vs with
        | []      => [[w, e]]
        | v :: us =>
          if cursor ≠ 1 && v ≠ "=" then [w, e, v] :: blocks (cursor - 3) us
          else [w, e] :: blocks (cursor - 2) (v :: us)
      else [w] :: blocks (cursor - 1) (e :: vs)

theorem flatten_blocks (cursor : Int) (ws : List String) : (blocks cursor ws).flatten = ws := by
  fun_induction blocks cursor ws <;> simp_all

-- Places beyond the last word stay as far beyond the last block.
def locate : List (List String) → Nat → Nat × Bool
  | [],      n => (n, false)
  | b :: bs, n =>
    if n < b.length then (0, 0 < n)
    else
      let (m, inner) := locate bs (n - b.length)
      (m + 1, inner)

structure Line where
  words : List String
  cursor : Int
  split : Bool
deriving DecidableEq, Repr

def joinEquals (words : List String) (cursor : Int) : Line :=
  let bs := blocks cursor words
  let (n, split) := if cursor < 0 then (cursor, false) else
    let (n, inner) := locate bs cursor.toNat
    ((n : Int), inner)
  { words := bs.map String.join, cursor := n, split }

end ShellArgs.Completion
