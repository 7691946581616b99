import BigLower.Pass.Run
import BigLower.Scopes.Resolve

/-! # Lowering units

A unit is a store and the slot of its program. Lowering imports the library at the
top of the program and then runs one pass over it. Several units can be lowered
against one table of names.
-/

namespace BigLower

inductive Rejection where
  /-- The root is not a node of the store. -/
  | invalidRoot (root : Slot)
  /-- The root is a node of another kind than a program. -/
  | notAProgram (found : String)
deriving DecidableEq

def Rejection.message : Rejection → String
  | invalidRoot root => s!"root {root.describe} is not a node of this arena"
  | notAProgram found => s!"expected a program at the root, found {found}"

/-- What a lowering leaves beside the changed store. -/
structure Outcome where
  /-- The import that was put at the top. -/
  importNode : Nat
  facts : Facts
  scopes : Scopes
  tally : Tally

/-- The import at the top of a unit: in place, or still to come. -/
structure Prologue where
  node : Option Nat := none

namespace Prologue

def isInserted (p : Prologue) : Bool := p.node.isSome

/--
Put the import at the top of a program. There is at most one: a second request,
or one for a node that is not a program, adds nothing.
-/
def insert (p : Prologue) (store : Store) (root : Slot) (names : LibraryNames) :
    Except Fault (Prologue × Store) := do
  if p.isInserted then
    return (p, store)
  else
    match ← store.node root with
    | ⟨.program body, span⟩ =>
      let (id, store) ← store.alloc (.importDefault names.library names.source) span
      let (body, store) ← store.prepend body (some id)
      let store ← store.replace root (.program body)
      return (⟨some id⟩, store)
    | _ => return (p, store)

end Prologue

structure Lowered (τ : Type) where
  store : Store
  names : τ
  result : Except Rejection Outcome

/-- Lower the unit in a slot of a store with a given judge. A rejected unit is left as it was. -/
def lowerBy {τ : Type} [Naming τ] (judge : Judge) (config : Config) (store : Store) (root : Slot)
    (names : τ) : Except Fault (Lowered τ) := do
  match store.node? root with
  | none => return ⟨store, names, .error (.invalidRoot root)⟩
  | some ⟨.program _, _⟩ =>
    let scopes ← store.resolve root
    let (engine, names) := config.engine judge names
    let (prologue, store) ← ({} : Prologue).insert store root engine.library
    match prologue.node with
    | none => return ⟨store, names, .error (.invalidRoot root)⟩
    | some importNode =>
      let ((), p) ← (engine.lowerSlot root).run { store, names, scopes }
      return ⟨p.store, p.names, .ok ⟨importNode, p.facts, p.scopes, p.tally⟩⟩
  | some node => return ⟨store, names, .error (.notAProgram node.kind.label)⟩

def lower {τ : Type} [Naming τ] (config : Config) (store : Store) (root : Slot) (names : τ) :
    Except Fault (Lowered τ) :=
  lowerBy .cached config store root names

structure CompilationUnit where
  store : Store
  root : Slot

structure LoweredUnit where
  store : Store
  root : Slot
  result : Except Rejection Outcome

/-- Lower units of a batch one after the other, and put each result at the unit's position. -/
def lowerInOrder {τ : Type} [Naming τ] (config : Config) (units : List CompilationUnit) :
    List (Fin units.length) → List (Option LoweredUnit) → τ →
      Except Fault (List (Option LoweredUnit) × τ)
  | [], results, names => return (results, names)
  | i :: rest, results, names => do
    let unit := units.get i
    let lowered ← lower config unit.store unit.root names
    let result : LoweredUnit := ⟨lowered.store, unit.root, lowered.result⟩
    lowerInOrder config units rest (results.set i (some result)) lowered.names

/--
Lower a batch of units against one table of names. The units can be taken up in any
order; their results are in the order of the batch.
-/
def lowerBatch {τ : Type} [Naming τ] (config : Config) (units : List CompilationUnit) (names : τ)
    (order : List (Fin units.length) := List.finRange units.length) :
    Except Fault (List LoweredUnit × τ) := do
  let (results, names) ← lowerInOrder config units order (units.map fun _ => none) names
  return (results.filterMap id, names)

end BigLower
