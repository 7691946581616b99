import BigLower.Taint.Facts

/-! # Reading facts after learning them -/

namespace BigLower

namespace Facts

@[simp] theorem flagsOf_none (f : Facts) : f.flagsOf none = {} := rfl

@[simp] theorem isKnownUntainted_none (f : Facts) : f.isKnownUntainted none = false := rfl

theorem flagsOf_add (f : Facts) (id : Nat) (flags : Flags) (slot : Slot) :
    (f.add (some id) flags).flagsOf slot =
      if slot = some id then (f.flagsOf slot).union flags else f.flagsOf slot := by
  cases slot with
  | none => rfl
  | some id' =>
    by_cases h : id = id'
    · subst h
      simp [add, flagsOf]
    · have other : ¬ id' = id := fun same => h same.symm
      simp [add, flagsOf, Std.TreeMap.getD_insert, h, other]

@[simp] theorem bindings_add (f : Facts) (slot : Slot) (flags : Flags) :
    (f.add slot flags).bindings = f.bindings := by
  cases slot <;> rfl

@[simp] theorem epoch_add (f : Facts) (slot : Slot) (flags : Flags) :
    (f.add slot flags).epoch = f.epoch := by
  cases slot <;> rfl

@[simp] theorem negatives_add (f : Facts) (slot : Slot) (flags : Flags) :
    (f.add slot flags).negatives = f.negatives := by
  cases slot <;> rfl

theorem isKnownUntainted_add (f : Facts) (slot slot' : Slot) (flags : Flags) :
    (f.add slot flags).isKnownUntainted slot' = f.isKnownUntainted slot' := by
  cases slot' with
  | none => rfl
  | some id => simp [isKnownUntainted]

@[simp] theorem flagsOf_nextEpoch (f : Facts) (slot : Slot) :
    f.nextEpoch.flagsOf slot = f.flagsOf slot := by
  cases slot <;> rfl

@[simp] theorem isKnownUntainted_recordUntainted (f : Facts) (id : Nat) :
    (f.recordUntainted (some id)).isKnownUntainted (some id) = true := by
  simp [recordUntainted, isKnownUntainted]

@[simp] theorem flagsOf_recordUntainted (f : Facts) (slot slot' : Slot) :
    (f.recordUntainted slot).flagsOf slot' = f.flagsOf slot' := by
  cases slot <;> cases slot' <;> rfl

theorem isTainted_markTainted (f : Facts) (id : Nat) (slot : Slot) :
    (f.markTainted (some id)).isTainted slot = (slot == some id || f.isTainted slot) := by
  by_cases h : slot = some id
  · subst h
    unfold markTainted
    split <;> simp [isTainted, flagsOf_add, Flags.union]
  · unfold markTainted
    split <;> simp [isTainted, flagsOf_add, h]

theorem isBindingTainted_taintBinding (f : Facts) (b b' : Nat) :
    (f.taintBinding b).2.isBindingTainted b' = (b == b' || f.isBindingTainted b') := by
  unfold taintBinding
  split
  · rename_i known
    by_cases same : b = b'
    · subst same
      simp [known]
    · simp [same]
  · have agree : (compare b b' == .eq) = (b == b') := by
      rw [Bool.eq_iff_iff, beq_iff_eq, beq_iff_eq]
      exact Nat.compare_eq_eq
    simp [isBindingTainted, agree]

end Facts

end BigLower
