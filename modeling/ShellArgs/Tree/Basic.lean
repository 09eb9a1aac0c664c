import ShellArgs.Tree.Command

-- Trees of commands. All commands of a tree are kept in one list, and refer to each other
-- by their places in it. Nothing keeps these references from being wrong, so following one
-- can fail, and walking a tree has to remember where it was.

namespace ShellArgs

structure Tree where
  nodes : List Command
deriving DecidableEq, Repr

inductive TreeError where
  | noNode (index : Int)
  | noForm
  | noRow
deriving DecidableEq, Repr

namespace Tree

def empty : Tree where
  nodes := [{ index := 0 }]

-- The place that an index means. Negative indices count from the end.
def place? (t : Tree) (i : Int) : Option Nat :=
  let n := t.nodes.length
  if 0 ≤ i then if i < n then some i.toNat else none
  else if -i ≤ n then some (n + i).toNat
  else none

theorem place?_lt {t : Tree} {i : Int} {p : Nat} (h : t.place? i = some p) :
    p < t.nodes.length := by
  simp only [place?] at h
  split at h <;> split at h <;> simp at h <;> omega

theorem place?_eq_some_iff_of_nonneg {t : Tree} {i : Int} {p : Nat} (h : 0 ≤ i) :
    t.place? i = some p ↔ i = p ∧ p < t.nodes.length := by
  simp only [place?, h, if_true]
  split <;> simp <;> omega

def place (t : Tree) (i : Int) : Except TreeError Nat :=
  match t.place? i with
  | some p => .ok p
  | none   => .error (.noNode i)

def node (t : Tree) (i : Int) : Except TreeError Command :=
  match t.place? i with
  | some p =>
    match t.nodes[p]? with
    | some c => .ok c
    | none   => .error (.noNode i)
  | none => .error (.noNode i)

theorem mem_nodes_of_node {t : Tree} {i : Int} {c : Command} (h : t.node i = .ok c) :
    c ∈ t.nodes := by
  simp only [node] at h
  split at h
  case h_2 => cases h
  case h_1 =>
    split at h
    case h_1 h' => cases h; exact List.mem_of_getElem? h'
    case h_2 => cases h

def root (t : Tree) : Except TreeError Command :=
  t.node 0

def childrenOf (t : Tree) (c : Command) : Except TreeError (List Command) :=
  c.children.mapM fun (_, i) => t.node i

def parentOf (t : Tree) (c : Command) : Except TreeError (Option Command) :=
  match c.parent with
  | some p => some <$> t.node p
  | none   => .ok none

def findChild (t : Tree) (c : Command) (word : String) : Except TreeError (Option Command) :=
  match c.children.get? word with
  | some i => some <$> t.node i
  | none   => return (← t.childrenOf c).find? (·.aliases.contains word)

-- The names on the way from the root to a command, without the root's. A way that comes
-- back to an index ends there.
def path (t : Tree) (c : Command) : Except TreeError (List String) :=
  go (t.nodes.length + 2) [] c []
where
  -- No way is longer than there are nodes.
  go : Nat → List Int → Command → List String → Except TreeError (List String)
    | 0,     _,    _, names => .ok names
    | n + 1, seen, c, names =>
      match c.parent with
      | none   => .ok names
      | some p =>
        if seen.contains c.index then .ok names
        else do go n (c.index :: seen) (← t.node p) (c.name :: names)

-- All commands below the root, parents before their children. Of commands with one index
-- only the first is visited.
def walk (t : Tree) : Except TreeError (List Command) := do
  go (1 + (t.nodes.flatMap (·.children)).length) [] [← t.root]
where
  -- The last list holds the commands that are still to be visited. Visiting one adds its
  -- children, so that no more commands come up than there are references to children.
  go : Nat → List Int → List Command → Except TreeError (List Command)
    | 0,     _,    _          => .ok []
    | _,     _,    []         => .ok []
    | n + 1, seen, c :: stack =>
      if seen.contains c.index then go n seen stack
      else do
        let cs ← t.childrenOf c
        return c :: (← go n (c.index :: seen) (cs ++ stack))

def modify (t : Tree) (p : Nat) (f : Command → Command) : Tree where
  nodes := t.nodes.modify p f

@[simp] theorem length_nodes_modify {t : Tree} {p : Nat} {f : Command → Command} :
    (t.modify p f).nodes.length = t.nodes.length := by
  simp [modify]

-- Adds a child to a command, and yields its index. The index and the parent of `child`
-- are set here.
def addChild (t : Tree) (i : Int) (child : Command) : Except TreeError (Tree × Int) := do
  let p ← t.place i
  let parent ← t.node i
  let index : Int := t.nodes.length
  let t := t.modify p fun c => { c with children := c.children.put child.name index }
  let child := { child with index, parent := some parent.index }
  return ({ nodes := t.nodes ++ [child] }, index)

end Tree

end ShellArgs
