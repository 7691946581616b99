import BigLower.Syntax.Node

/-! # Faults

A fault ends the operation that meets it. Malformed trees are legal input, so
every operation that follows an index or a range can meet one.
-/

namespace BigLower

/-- Why an operation could not go on. -/
inductive Fault where
  /-- An index or a range leads outside the store, or an absent child is needed. -/
  | outOfBounds
  /-- A list has more entries than a range can count. -/
  | listTooLong (length : Nat)
  /-- There is no index left for another node. -/
  | tooManyNodes (count : Nat)
  /-- A list would start where no range can. -/
  | tooManyEntries (count : Nat)
  /-- A list position is not in its range. -/
  | listIndex (index : Nat) (range : Range)
  /-- A member path without any segment. -/
  | emptyPath
  /-- A node lies below itself. -/
  | cyclic
deriving DecidableEq

namespace Fault

def message : Fault → String
  | outOfBounds => "index out of bounds"
  | listTooLong length => s!"node list too long: {length} exceeds u16::MAX"
  | tooManyNodes count => s!"too many nodes: {count} exceeds u32::MAX"
  | tooManyEntries count => s!"too many list entries: {count} exceeds u32::MAX"
  | listIndex index range => s!"list index {index} out of {range.describe}"
  | emptyPath => "path needs at least one segment"
  | cyclic => "node lies below itself"

end Fault

end BigLower
