/-! # Lowering rules and their tally -/

namespace BigLower

inductive Rule where
  | literal
  | constructor
  | binary
  | unary
  | compoundAssign
  | methodCall
deriving DecidableEq

namespace Rule

def all : List Rule :=
  [literal, constructor, binary, unary, compoundAssign, methodCall]

def label : Rule → String
  | literal => "literal"
  | constructor => "constructor"
  | binary => "binary"
  | unary => "unary"
  | compoundAssign => "compound-assign"
  | methodCall => "method-call"

end Rule

structure Tally where
  literals : Nat := 0
  constructorCalls : Nat := 0
  binary : Nat := 0
  unary : Nat := 0
  compoundAssignments : Nat := 0
  methodCalls : Nat := 0
deriving DecidableEq

namespace Tally

def count (t : Tally) : Rule → Tally
  | .literal => { t with literals := t.literals + 1 }
  | .constructor => { t with constructorCalls := t.constructorCalls + 1 }
  | .binary => { t with binary := t.binary + 1 }
  | .unary => { t with unary := t.unary + 1 }
  | .compoundAssign => { t with compoundAssignments := t.compoundAssignments + 1 }
  | .methodCall => { t with methodCalls := t.methodCalls + 1 }

def total (t : Tally) : Nat :=
  t.literals + t.constructorCalls + t.binary + t.unary + t.compoundAssignments + t.methodCalls

@[simp] theorem total_count (t : Tally) (rule : Rule) : (t.count rule).total = t.total + 1 := by
  cases rule <;> simp only [count, total] <;> omega

end Tally

end BigLower
