import BigLower.Pass.Rules

/-! # Running a pass

One depth-first walk. A node that was entered before is not entered again, so a
second walk over a finished part changes nothing.
-/

namespace BigLower

namespace Engine

variable {τ : Type} [Naming τ]

def declaratorBelow (s : Store) (enclosing : Slot) (id : Nat) : Slot :=
  match s.node? (some id) with
  | some ⟨.declarator .., _⟩ => some id
  | _ => enclosing

@[specialize] def descend (walk : Slot → Nat → PassM τ Unit) (enclosing : Slot)
    (id : Nat) : PassM τ Unit := do
  let s := (← get).store
  let inner := declaratorBelow s enclosing id
  (← s.children (some id)).forM (walk inner)

def lowerWithin (E : Engine) : Nat → Slot → Nat → PassM τ Unit
  | 0, _, _ => throw .cyclic
  | fuel + 1, enclosing, id => do
    if (← get).store.contains (some id) then
      match ← E.enter enclosing id with
      | .done => pure ()
      | .below =>
        descend (E.lowerWithin fuel) enclosing id
        E.leave enclosing id
      | .compound method target value =>
        descend (E.lowerWithin fuel) enclosing id
        E.lowerCompound enclosing id method target value
      PassM.learn fun f => f.markSettled (some id)

/--
Lower what is in a slot; a slot without a node is left alone.

No path in a store without cycles is longer than the store, and what a rule adds
below a node is two levels deep, so the size and three bound the depth.
-/
def lowerSlot (E : Engine) : Slot → PassM τ Unit
  | none => pure ()
  | some id => do E.lowerWithin ((← get).store.size + 3) none id

end Engine

end BigLower
