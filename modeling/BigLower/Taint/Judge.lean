import BigLower.Store.Basic
import BigLower.Taint.Facts
import BigLower.Taint.Method

/-! # Which values may be big integers

A judge decides whether the value in a slot may be a big integer. The plain judge
recomputes its answer from the taints each time. The caching judge gives the same
kind of answer and remembers it: a positive one as a taint, a negative one until
the next epoch.
-/

namespace BigLower

namespace Store

def isIdent (s : Store) (slot : Slot) (name : Name) : Bool :=
  match s.node? slot with
  | some ⟨.ident text, _⟩ => text == name
  | _ => false

def isConstructor (s : Store) (constructor : Name) (callee : Slot) : Bool :=
  match s.node? callee with
  | some ⟨.ident name, _⟩ => name == constructor
  | some ⟨.member object _, _⟩ => s.isIdent object constructor
  | _ => false

end Store

/-- Decides whether the value in a slot may be a big integer; the facts may change on the way. -/
abbrev Judge := Store → Scopes → Name → Slot → Facts → Bool × Facts

namespace Judge

/--
The answer that follows from the taints alone, to a depth that `fuel` bounds.

A tainted node is a big integer. Otherwise a literal is, an identifier is if its
binding is tainted, a call is if it calls the constructor, and an operation is if
the library has a method for it and an operand is.
-/
def plainWithin (s : Store) (t : Scopes) (constructor : Name) (f : Facts) : Nat → Slot → Bool
  | 0, _ => false
  | fuel + 1, slot =>
    match s.node? slot with
    | none => false
    | some node =>
      f.isTainted slot ||
        match node.kind with
        | .bigInt _ => true
        | .ident _ => (t.bindingOf slot).any f.isBindingTainted
        | .call callee _ => s.isConstructor constructor callee
        | .binary op left right =>
          op.method?.isSome &&
            (plainWithin s t constructor f fuel left || plainWithin s t constructor f fuel right)
        | .unary op operand => op.method?.isSome && plainWithin s t constructor f fuel operand
        | .assign op _ value => op.method?.isSome && plainWithin s t constructor f fuel value
        | _ => false

def plain : Judge := fun s t constructor slot f =>
  (plainWithin s t constructor f (s.size + 1) slot, f)

/-- The remembered answer, or else the answer for the node's kind, which is then remembered. -/
def cachedWithin (s : Store) (t : Scopes) (constructor : Name) :
    Nat → Slot → Facts → Bool × Facts
  | 0, _, f => (false, f)
  | fuel + 1, slot, f =>
    match s.node? slot with
    | none => (false, f)
    | some node =>
      if f.isTainted slot then (true, f)
      else if f.isKnownUntainted slot then (false, f)
      else
        let (answer, f) := match node.kind with
          | .bigInt _ => (true, f)
          | .ident _ => ((t.bindingOf slot).any f.isBindingTainted, f)
          | .call callee _ => (s.isConstructor constructor callee, f)
          | .binary op left right =>
            if op.method?.isSome then
              match cachedWithin s t constructor fuel left f with
              | (true, f) => (true, f)
              | (false, f) => cachedWithin s t constructor fuel right f
            else (false, f)
          | .unary op operand =>
            if op.method?.isSome then cachedWithin s t constructor fuel operand f else (false, f)
          | .assign op _ value =>
            if op.method?.isSome then cachedWithin s t constructor fuel value f else (false, f)
          | _ => (false, f)
        if answer then (true, f.markTainted slot) else (false, f.recordUntainted slot)

def cached : Judge := fun s t constructor slot f =>
  cachedWithin s t constructor (s.size + 1) slot f

/-- Whether some slot of a list may hold a big integer; slots after the first such are not judged. -/
def anySlot (judge : Judge) (s : Store) (t : Scopes) (constructor : Name) :
    List Slot → Facts → Bool × Facts
  | [], f => (false, f)
  | slot :: rest, f =>
    match judge s t constructor slot f with
    | (true, f) => (true, f)
    | (false, f) => judge.anySlot s t constructor rest f

def anyEntry (judge : Judge) (s : Store) (t : Scopes) (constructor : Name) (range : Range)
    (f : Facts) : Except Fault (Bool × Facts) := do
  return judge.anySlot s t constructor (← s.list range) f

end Judge

end BigLower
