import BigLower.Pass.Basic
import BigLower.Taint.Lemmas

/-! # Facts after a rule was applied

Each operation on the facts sets one flag of one node, or one taint of one
binding, and leaves the rest. Applying a rule to a node marks the node and the
declarator around it.
-/

namespace BigLower

namespace Facts

variable (f : Facts)

/-! ## One flag at a time -/

@[simp] theorem flagsOf_empty (slot : Slot) : ({} : Facts).flagsOf slot = {} := by
  cases slot <;> simp [flagsOf]

@[simp] theorem isTainted_add (id : Nat) (flags : Flags) (slot : Slot) :
    (f.add (some id) flags).isTainted slot =
      (f.isTainted slot || (slot == some id && flags.tainted)) := by
  unfold isTainted
  rw [flagsOf_add]
  by_cases same : slot = some id <;> simp [same, Flags.union]

@[simp] theorem isReplaced_add (id : Nat) (flags : Flags) (slot : Slot) :
    (f.add (some id) flags).isReplaced slot =
      (f.isReplaced slot || (slot == some id && flags.replaced)) := by
  unfold isReplaced
  rw [flagsOf_add]
  by_cases same : slot = some id <;> simp [same, Flags.union]

@[simp] theorem isSettled_add (id : Nat) (flags : Flags) (slot : Slot) :
    (f.add (some id) flags).isSettled slot =
      (f.isSettled slot || (slot == some id && flags.settled)) := by
  unfold isSettled
  rw [flagsOf_add]
  by_cases same : slot = some id <;> simp [same, Flags.union]

@[simp] theorem isReplaced_markSettled (id : Nat) (slot : Slot) :
    (f.markSettled (some id)).isReplaced slot = f.isReplaced slot := by
  simp [markSettled]

@[simp] theorem isSettled_markSettled (id : Nat) (slot : Slot) :
    (f.markSettled (some id)).isSettled slot = (f.isSettled slot || slot == some id) := by
  simp [markSettled]

@[simp] theorem isReplaced_markTainted (id : Nat) (slot : Slot) :
    (f.markTainted (some id)).isReplaced slot = f.isReplaced slot := by
  unfold markTainted
  split
  · rw [isReplaced_add]
    simp [isReplaced]
  · simp

@[simp] theorem isSettled_markTainted (id : Nat) (slot : Slot) :
    (f.markTainted (some id)).isSettled slot = f.isSettled slot := by
  unfold markTainted
  split
  · rw [isSettled_add]
    simp [isSettled]
  · simp

@[simp] theorem bindings_markTainted (slot : Slot) : (f.markTainted slot).bindings = f.bindings := by
  unfold markTainted
  split <;> simp [nextEpoch]

@[simp] theorem flagsOf_taintBinding (b : Nat) (slot : Slot) :
    (f.taintBinding b).2.flagsOf slot = f.flagsOf slot := by
  unfold taintBinding
  split
  · rfl
  · cases slot <;> rfl

section Copies

variable (y x : Nat) (slot : Slot)

@[simp] theorem isTainted_copyFlags : (f.copyFlags (some y) (some x)).isTainted slot =
    (f.isTainted slot || (slot == some x && f.isTainted (some y))) := by
  unfold copyFlags
  split
  · rename_i empty
    have none : f.isTainted (some y) = false := by simp_all [Flags.isEmpty, isTainted]
    simp [none]
  · rw [isTainted_add]
    rfl

@[simp] theorem isReplaced_copyFlags : (f.copyFlags (some y) (some x)).isReplaced slot =
    (f.isReplaced slot || (slot == some x && f.isReplaced (some y))) := by
  unfold copyFlags
  split
  · rename_i empty
    have none : f.isReplaced (some y) = false := by simp_all [Flags.isEmpty, isReplaced]
    simp [none]
  · rw [isReplaced_add]
    rfl

@[simp] theorem isSettled_copyFlags : (f.copyFlags (some y) (some x)).isSettled slot =
    (f.isSettled slot || (slot == some x && f.isSettled (some y))) := by
  unfold copyFlags
  split
  · rename_i empty
    have none : f.isSettled (some y) = false := by simp_all [Flags.isEmpty, isSettled]
    simp [none]
  · rw [isSettled_add]
    rfl

@[simp] theorem bindings_copyFlags (copy : Slot) : (f.copyFlags slot copy).bindings = f.bindings := by
  unfold copyFlags
  split <;> simp

theorem isKnownUntainted_copyFlags (source copy : Slot) :
    (f.copyFlags source copy).isKnownUntainted slot = f.isKnownUntainted slot := by
  unfold copyFlags
  split
  · rfl
  · exact f.isKnownUntainted_add _ _ _

end Copies

/-! ## Marks -/

def taintDeclarator (t : Scopes) : Slot → Facts
  | none => f
  | some id =>
    match t.declaredBy (some id) with
    | none => f.markTainted (some id)
    | some binding => ((f.markTainted (some id)).taintBinding binding).2

/-- A rule was applied to a node inside the initial value of `enclosing`. -/
def marked (t : Scopes) (enclosing : Slot) (id : Nat) : Facts :=
  ((f.markReplaced (some id)).markTainted (some id)).taintDeclarator t enclosing

variable (t : Scopes) (enclosing : Slot)

theorem isReplaced_taintDeclarator (slot : Slot) :
    (f.taintDeclarator t enclosing).isReplaced slot = f.isReplaced slot := by
  unfold taintDeclarator
  split
  · rfl
  · split
    · simp
    · unfold isReplaced
      rw [flagsOf_taintBinding]
      exact f.isReplaced_markTainted _ slot

theorem isSettled_taintDeclarator (slot : Slot) :
    (f.taintDeclarator t enclosing).isSettled slot = f.isSettled slot := by
  unfold taintDeclarator
  split
  · rfl
  · split
    · simp
    · unfold isSettled
      rw [flagsOf_taintBinding]
      exact f.isSettled_markTainted _ slot

theorem isTainted_taintDeclarator (x : Nat) :
    (f.taintDeclarator t enclosing).isTainted (some x) =
      (some x == enclosing || f.isTainted (some x)) := by
  unfold taintDeclarator
  split
  · rfl
  · split
    · rw [isTainted_markTainted]
    · unfold isTainted
      rw [flagsOf_taintBinding]
      exact f.isTainted_markTainted _ _

theorem isBindingTainted_taintDeclarator (b : Nat) :
    (f.taintDeclarator t enclosing).isBindingTainted b =
      (t.declaredBy enclosing == some b || f.isBindingTainted b) := by
  unfold taintDeclarator
  split
  · simp [Scopes.declaredBy]
  · split
    · rename_i undeclared
      simp [isBindingTainted, undeclared]
    · rename_i binding declared
      rw [isBindingTainted_taintBinding, declared]
      simp [isBindingTainted]

variable (id : Nat)

@[simp] theorem isReplaced_marked (slot : Slot) :
    (f.marked t enclosing id).isReplaced slot = (slot == some id || f.isReplaced slot) := by
  simp [marked, isReplaced_taintDeclarator, markReplaced, Bool.or_comm]

@[simp] theorem isSettled_marked (slot : Slot) :
    (f.marked t enclosing id).isSettled slot = f.isSettled slot := by
  simp [marked, isSettled_taintDeclarator, markReplaced]

@[simp] theorem isTainted_marked (x : Nat) :
    (f.marked t enclosing id).isTainted (some x) =
      (x == id || some x == enclosing || f.isTainted (some x)) := by
  simp [marked, isTainted_taintDeclarator, isTainted_markTainted, markReplaced, Bool.or_assoc,
    Bool.or_left_comm]

@[simp] theorem isBindingTainted_marked (b : Nat) :
    (f.marked t enclosing id).isBindingTainted b =
      (t.declaredBy enclosing == some b || f.isBindingTainted b) := by
  unfold marked
  rw [isBindingTainted_taintDeclarator]
  simp [isBindingTainted, markReplaced]

end Facts

namespace Engine

variable {τ : Type}

theorem applied_eq (enclosing : Slot) (id : Nat) (rule : Rule) (p : Pass τ) :
    applied enclosing id rule p =
      .ok ((), { p with
        facts := p.facts.marked p.scopes enclosing id
        tally := p.tally.count rule }) := by
  show (applied enclosing id rule).run p = pure ((), { p with
    facts := p.facts.marked p.scopes enclosing id
    tally := p.tally.count rule })
  cases enclosing with
  | none => rfl
  | some d =>
    cases declared : p.scopes.declaredBy (some d) with
    | none =>
      simp [applied, taintDeclarator, PassM.learn, declared, Facts.marked, Facts.taintDeclarator]
    | some b =>
      simp [applied, taintDeclarator, PassM.learn, declared, Facts.marked, Facts.taintDeclarator]

end Engine

end BigLower
