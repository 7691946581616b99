import BigLower.Store.Basic

/-! # Visiting in preorder -/

namespace BigLower

namespace Store

def preorderFrom (s : Store) (stop : NodeKind → Bool) :
    Nat → Slot → Array (Nat × NodeKind) → Except Fault (Array (Nat × NodeKind))
  | 0, _, _ => throw .cyclic
  | _ + 1, none, _ => throw .outOfBounds
  | fuel + 1, some id, seen => do
    let kind ← s.kind (some id)
    let seen := seen.push (id, kind)
    if stop kind then
      return seen
    else
      (← s.children (some id)).foldlM (fun seen child => s.preorderFrom stop fuel (some child) seen)
        seen

/-- The nodes below a slot in visiting order; nodes of the kinds in `stop` are not walked into. -/
def preorder (s : Store) (stop : NodeKind → Bool) (slot : Slot) :
    Except Fault (List (Nat × NodeKind)) := do
  return (← s.preorderFrom stop (s.size + 1) slot #[]).toList

end Store

end BigLower
