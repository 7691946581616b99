import BigLower.Store.Basic

/-! # Deep copies

A deep copy allocates a new node for every node below a given one, children
before parents, and reports which new node stands for which old one. A node that
is reached twice is copied twice.
-/

namespace BigLower

namespace Store

/-- A copy under way: the store so far, and the pairs of old and new nodes, oldest first. -/
structure Copying where
  store : Store
  pairs : Array (Nat × Nat) := #[]

abbrev CopyM := StateT Copying (Except Fault)

namespace CopyM

def alloc (kind : NodeKind) (span : Span) : CopyM Nat := fun c => do
  let (id, store) ← c.store.alloc kind span
  return (id, { c with store })

def allocList (slots : List Slot) : CopyM Range := fun c => do
  let (range, store) ← c.store.allocList slots
  return (range, { c with store })

def pair (old new : Nat) : CopyM Unit :=
  modify fun c => { c with pairs := c.pairs.push (old, new) }

@[specialize] def slot (copyNode : Nat → CopyM Nat) : Slot → CopyM Slot
  | none => return none
  | some id => return some (← copyNode id)

@[specialize] def list (copyNode : Nat → CopyM Nat) (range : Range) : CopyM Range := do
  let slots ← (← get).store.list range
  allocList (← slots.mapM (slot copyNode))

end CopyM

def copyNode : Nat → Nat → CopyM Nat
  | 0, _ => throw .cyclic
  | fuel + 1, id => do
    let node ← (← get).store.node (some id)
    let copySlot := CopyM.slot (copyNode fuel)
    let kind ← node.kind.traverse copySlot copySlot (CopyM.list (copyNode fuel))
    let copy ← CopyM.alloc kind node.span
    CopyM.pair id copy
    return copy

/-- A finished copy: its root, and which new node stands for which old one, in order of creation. -/
structure Copied where
  root : Slot
  pairs : List (Nat × Nat)

/--
Copy what is in a slot, with everything below it.

No path in a store without cycles is longer than the store, so its size bounds
the depth.
-/
def deepCopy (s : Store) (slot : Slot) : Except Fault (Copied × Store) := do
  let (root, c) ← CopyM.slot (copyNode (s.size + 1)) slot |>.run { store := s }
  return (⟨root, c.pairs.toList⟩, c.store)

end Store

end BigLower
