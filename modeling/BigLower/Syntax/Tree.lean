import BigLower.Store.Basic

/-! # Nested trees

What hangs below a stored node, as a value of its own: each node holds its
subtrees, and a tag that the reader of the store chooses. A node that is shared
in the store occurs once for every place it is in.
-/

namespace BigLower

inductive Tree (α ν : Type) where
  | node (tag : α) (kind : Kind ν (Option (Tree α ν)) (List (Option (Tree α ν))))

namespace Tree

abbrev Part (α ν : Type) := Option (Tree α ν)

def kind {α ν : Type} : Tree α ν → Kind ν (Part α ν) (List (Part α ν))
  | node _ kind => kind

def tag {α ν : Type} : Tree α ν → α
  | node tag _ => tag

end Tree

namespace Store

/-- The tree in a slot, read by `read`; `gap` says what an absent child comes to. -/
@[specialize] def part (gap : Except Fault (Tree.Part Nat Name))
    (read : Nat → Except Fault (Tree Nat Name)) : Slot → Except Fault (Tree.Part Nat Name)
  | none => gap
  | some id => return some (← read id)

/--
Read the tree below a node, to a depth that `fuel` bounds. What an absent child
comes to is given by `gap`, except where the child is optional.
-/
def treeWithin (s : Store) (gap : Except Fault (Tree.Part Nat Name)) :
    Nat → Nat → Except Fault (Tree Nat Name)
  | 0, _ => throw .cyclic
  | fuel + 1, id => do
    let kind ← s.kind (some id)
    let read := s.treeWithin gap fuel
    let kind ← kind.traverse (part gap read) (part (pure none) read)
      fun range => do (← s.list range).mapM (part gap read)
    return .node id kind

/--
The tree below a node, tagged with the indices of its nodes.

No path in a store without cycles is longer than the store, so its size bounds
the depth.
-/
def tree (s : Store) (id : Nat) : Except Fault (Tree Nat Name) :=
  s.treeWithin (pure none) (s.size + 1) id

/--
The tree below a node, if only optional children are absent.

The first gap ends the reading: what stands behind it is not looked at, and may
be large when nodes are shared.
-/
def wholeTree (s : Store) (id : Nat) : Except Fault (Tree Nat Name) :=
  s.treeWithin (throw .outOfBounds) (s.size + 1) id

end Store

end BigLower
