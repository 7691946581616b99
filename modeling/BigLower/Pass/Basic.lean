import BigLower.Pass.Library
import BigLower.Pass.Rule
import BigLower.Store.Copy
import BigLower.Taint.Judge

/-! # The lowering pass: state and single steps

A pass changes a store in place: a lowered node keeps its index, its span and its
parent, and gets a new kind. The steps here are what the rules are made of.
-/

namespace BigLower

/-- What stays the same during a pass. -/
structure Engine where
  library : LibraryNames
  memberCalls : Bool
  judge : Judge

def Config.engine {τ : Type} [Naming τ] (c : Config) (judge : Judge) (names : τ) : Engine × τ :=
  let (library, names) := c.intern names
  ({ library, memberCalls := c.memberCalls, judge }, names)

/-- What a pass changes, over a table of names `τ`. -/
structure Pass (τ : Type) where
  store : Store
  names : τ
  scopes : Scopes
  facts : Facts := {}
  tally : Tally := {}

abbrev PassM (τ : Type) := StateT (Pass τ) (Except Fault)

namespace PassM

variable {τ : Type}

def node (slot : Slot) : PassM τ Node := do
  (← get).store.node slot

def alloc (kind : NodeKind) (span : Span) : PassM τ Nat := fun p => do
  let (id, store) ← p.store.alloc kind span
  return (id, { p with store })

def allocList (slots : List Slot) : PassM τ Range := fun p => do
  let (range, store) ← p.store.allocList slots
  return (range, { p with store })

def replace (slot : Slot) (kind : NodeKind) : PassM τ Unit := fun p => do
  let store ← p.store.replace slot kind
  return ((), { p with store })

def learn (step : Facts → Facts) : PassM τ Unit :=
  modify fun p => { p with facts := step p.facts }

def intern [Naming τ] (text : String) : PassM τ Name :=
  modifyGet fun p =>
    let (name, names) := Naming.intern p.names text
    (name, { p with names })

/-- Copy what is in a slot with everything below; copies keep the facts and the bindings. -/
def copy (slot : Slot) : PassM τ Slot := fun p => do
  let (copied, store) ← p.store.deepCopy slot
  let scopes := copied.pairs.foldl
    (fun t (old, new) => t.copyReference (some new) (some old)) p.scopes
  let facts := copied.pairs.foldl (fun f (old, new) => f.copyFlags (some old) (some new)) p.facts
  return (copied.root, { p with store, scopes, facts })

end PassM

namespace Engine

variable {τ : Type}

/-- Whether one of some slots may hold a big integer; slots after the first such are not judged. -/
def someBig (E : Engine) (slots : List Slot) : PassM τ Bool :=
  modifyGet fun p =>
    let (answer, facts) := E.judge.anySlot p.store p.scopes E.library.constructor slots p.facts
    (answer, { p with facts })

def libraryMember (E : Engine) (property : Name) (span : Span) : PassM τ Nat := do
  let object ← PassM.alloc (.ident E.library.library) span
  PassM.alloc (.member (some object) property) span

def taintDeclarator : Slot → PassM τ Unit
  | none => pure ()
  | some id => modify fun p =>
    let facts := p.facts.markTainted (some id)
    match p.scopes.declaredBy (some id) with
    | none => { p with facts }
    | some binding => { p with facts := (facts.taintBinding binding).2 }

/--
Note that a rule was applied to a node inside the initial value of `enclosing`:
the node is tainted, and so is the variable being declared.
-/
def applied (enclosing : Slot) (id : Nat) (rule : Rule) : PassM τ Unit := do
  PassM.learn fun f => (f.markReplaced (some id)).markTainted (some id)
  taintDeclarator enclosing
  modify fun p => { p with tally := p.tally.count rule }

end Engine

end BigLower
