import BigLower.Scopes.Basic
import Std.Data.TreeSet

/-! # Facts about nodes and bindings

What the lowering has found out so far. A node is tainted when its value may be
a big integer, replaced when a rule has changed it, and settled when nothing is
left to do below it; a binding is tainted when it may hold a big integer. Besides,
the facts remember for which nodes the answer was "not a big integer", and an
epoch that makes all such answers stale at once when a new taint could turn one.
-/

namespace BigLower

structure Flags where
  tainted : Bool := false
  replaced : Bool := false
  settled : Bool := false
deriving DecidableEq

namespace Flags

def isEmpty (f : Flags) : Bool := !(f.tainted || f.replaced || f.settled)

def union (f g : Flags) : Flags :=
  ⟨f.tainted || g.tainted, f.replaced || g.replaced, f.settled || g.settled⟩

def bits (f : Flags) : Nat :=
  f.tainted.toNat + 2 * f.replaced.toNat + 4 * f.settled.toNat

end Flags

/--
All facts about one unit. An epoch is started only by a node or a binding that was untainted
before, so there are no more epochs than nodes and bindings, and the count has no bound here.
-/
structure Facts where
  flags : Std.TreeMap Nat Flags := ∅
  bindings : Std.TreeSet Nat := ∅
  /-- The epoch in which a node was last found untainted. -/
  negatives : Std.TreeMap Nat Nat := ∅
  epoch : Nat := 0

namespace Facts

def flagsOf (f : Facts) : Slot → Flags
  | none => {}
  | some id => f.flags.getD id {}

def isTainted (f : Facts) (slot : Slot) : Bool := (f.flagsOf slot).tainted

def isReplaced (f : Facts) (slot : Slot) : Bool := (f.flagsOf slot).replaced

def isSettled (f : Facts) (slot : Slot) : Bool := (f.flagsOf slot).settled

def isBindingTainted (f : Facts) (binding : Nat) : Bool := f.bindings.contains binding

def isKnownUntainted (f : Facts) : Slot → Bool
  | none => false
  | some id => f.negatives[id]? == some f.epoch

def add (f : Facts) (slot : Slot) (flags : Flags) : Facts :=
  match slot with
  | none => f
  | some id => { f with flags := f.flags.insert id ((f.flagsOf slot).union flags) }

/-- Start a new epoch: no answer of before is known any more. -/
def nextEpoch (f : Facts) : Facts := { f with epoch := f.epoch + 1 }

/-- Taint the node in a slot. If it was found untainted, answers that used this are stale. -/
def markTainted (f : Facts) (slot : Slot) : Facts :=
  if !f.isTainted slot && f.isKnownUntainted slot then
    f.nextEpoch.add slot { tainted := true }
  else
    f.add slot { tainted := true }

def markReplaced (f : Facts) (slot : Slot) : Facts := f.add slot { replaced := true }

def markSettled (f : Facts) (slot : Slot) : Facts := f.add slot { settled := true }

def recordUntainted (f : Facts) : Slot → Facts
  | none => f
  | some id => { f with negatives := f.negatives.insert id f.epoch }

def copyFlags (f : Facts) (source copy : Slot) : Facts :=
  if (f.flagsOf source).isEmpty then f else f.add copy (f.flagsOf source)

/-- Taint a binding, and tell whether that is new. A new taint makes all answers stale. -/
def taintBinding (f : Facts) (binding : Nat) : Bool × Facts :=
  if f.isBindingTainted binding then
    (false, f)
  else
    (true, { f with bindings := f.bindings.insert binding, epoch := f.epoch + 1 })

def taintedNodeCount (f : Facts) : Nat :=
  f.flags.foldl (fun count _ flags => if flags.tainted then count + 1 else count) 0

def taintedBindingCount (f : Facts) : Nat := f.bindings.size

end Facts

end BigLower
