import BigLower.Fault

/-! # The node store

Nodes live in one array and refer to each other by index; the entries of all
their lists live in a second array, and a list is a range of it. Nodes and list
entries are only ever added or overwritten, so an index or a range stays good
for the life of the store.
-/

namespace BigLower

structure Node where
  kind : NodeKind
  span : Span
deriving DecidableEq

/-- All nodes of a unit, and the entries of all their lists. -/
structure Store where
  nodes : Array Node := #[]
  lists : Array Slot := #[]

namespace Store

def maxListLength : Nat := 65535

/--
The largest 32-bit word. It is the word of an absent node, so no node gets it for an
index, and a store with this many nodes takes no more.
-/
def maxIndex : Nat := 4294967295

def size (s : Store) : Nat := s.nodes.size

def isEmpty (s : Store) : Bool := s.size == 0

def contains (s : Store) : Slot → Bool
  | none => false
  | some id => id < s.size

def node? (s : Store) : Slot → Option Node
  | none => none
  | some id => s.nodes[id]?

def node (s : Store) (slot : Slot) : Except Fault Node :=
  match s.node? slot with
  | some node => .ok node
  | none => .error .outOfBounds

def kind (s : Store) (slot : Slot) : Except Fault NodeKind :=
  match s.node? slot with
  | some node => .ok node.kind
  | none => .error .outOfBounds

def span (s : Store) (slot : Slot) : Except Fault Span :=
  match s.node? slot with
  | some node => .ok node.span
  | none => .error .outOfBounds

def push (s : Store) (kind : NodeKind) (span : Span) : Store :=
  { s with nodes := s.nodes.push ⟨kind, span⟩ }

/--
Add a node; its index is the old size. Already the node that would get the word of an
absent one for its index is refused, and not only those that would get no word at all.
-/
def alloc (s : Store) (kind : NodeKind) (span : Span) : Except Fault (Nat × Store) :=
  if s.size < maxIndex then
    .ok (s.size, s.push kind span)
  else
    .error (.tooManyNodes (s.size + 1))

/-- Give a node another kind. It keeps its index and its span. -/
def replace (s : Store) (slot : Slot) (kind : NodeKind) : Except Fault Store :=
  match slot with
  | none => .error .outOfBounds
  | some id =>
    if id < s.size then
      .ok { s with nodes := s.nodes.modify id fun node => { node with kind } }
    else
      .error .outOfBounds

/-- Put slots behind all others. A list without entries takes no room. -/
def append (s : Store) (slots : List Slot) : Range × Store :=
  if slots.isEmpty then
    (.empty, s)
  else
    (⟨s.lists.size, slots.length⟩, { s with lists := s.lists ++ slots.toArray })

/-- Store a list of slots, if a range can start at the end and count them. -/
def allocList (s : Store) (slots : List Slot) : Except Fault (Range × Store) :=
  if !slots.isEmpty && maxIndex < s.lists.size then
    .error (.tooManyEntries s.lists.size)
  else if slots.length ≤ maxListLength then
    .ok (s.append slots)
  else
    .error (.listTooLong slots.length)

/-- The entries of a range. A range without entries is good wherever it starts. -/
def list (s : Store) (range : Range) : Except Fault (List Slot) :=
  if range.isEmpty then
    .ok []
  else if range.stop ≤ s.lists.size then
    .ok (s.lists.extract range.start range.stop).toList
  else
    .error .outOfBounds

def setListItem (s : Store) (range : Range) (index : Nat) (slot : Slot) : Except Fault Store :=
  if index < range.len then
    if range.start + index < s.lists.size then
      .ok { s with lists := s.lists.setIfInBounds (range.start + index) slot }
    else
      .error .outOfBounds
  else
    .error (.listIndex index range)

/--
Store a new list: one more entry, then the entries of a range.

The entries are read after the new one is in place, so a range that reaches one
position past the old end reads it back.
-/
def prepend (s : Store) (range : Range) (first : Slot) : Except Fault (Range × Store) :=
  if maxIndex < s.lists.size then
    .error (.tooManyEntries s.lists.size)
  else if range.isEmpty then
    .ok (⟨s.lists.size, 1⟩, { s with lists := s.lists.push first })
  else if s.lists.size + 1 < range.stop then
    .error .outOfBounds
  else if range.len < maxListLength then
    .ok (⟨s.lists.size, range.len + 1⟩,
      { s with lists := s.lists.push first ++ (s.lists.push first).extract range.start range.stop })
  else
    .error (.listTooLong (range.len + 1))

def slotsOf (s : Store) : List (Slot ⊕ Range) → Except Fault (List Slot)
  | [] => .ok []
  | .inl slot :: rest => return slot :: (← s.slotsOf rest)
  | .inr range :: rest => return (← s.list range) ++ (← s.slotsOf rest)

def children (s : Store) (slot : Slot) : Except Fault (List Nat) := do
  let kind ← s.kind slot
  let slots ← s.slotsOf kind.parts
  return slots.filterMap id

end Store

end BigLower
