import BigLower.Syntax.Operator

/-! # Library methods

The big-integer library has a method for most operators. Operators without one
never see a big integer, so they are left alone.
-/

namespace BigLower

/-- The library function that makes a big integer from a text. -/
def factoryText : String := "BigInt"

def BinaryOp.method? : BinaryOp → Option String
  | add => some "add"
  | sub => some "subtract"
  | mul => some "multiply"
  | div => some "divide"
  | rem => some "remainder"
  | pow => some "exponentiate"
  | shiftLeft => some "leftShift"
  | shiftRight => some "signedRightShift"
  | bitAnd => some "bitwiseAnd"
  | bitOr => some "bitwiseOr"
  | bitXor => some "bitwiseXor"
  | lt => some "lessThan"
  | gt => some "greaterThan"
  | le => some "lessThanOrEqual"
  | ge => some "greaterThanOrEqual"
  | strictEq => some "equal"
  | strictNe => some "notEqual"
  | shiftRightZero | isIn | instanceOf | looseEq | looseNe | and | or | coalesce => none

def UnaryOp.method? : UnaryOp → Option String
  | neg => some "unaryMinus"
  | bitNot => some "bitwiseNot"
  | plus | not | typeOf | void => none

def AssignOp.method? (op : AssignOp) : Option String :=
  op.base?.bind BinaryOp.method?

def methodTable : List (String × String) :=
  BinaryOp.all.filterMap fun op => op.method?.map fun method => (op.symbol, method)

def methodOfSymbol? (symbol : String) : Option String :=
  methodTable.lookup symbol

/-- The library method for a method of the mathematics object: only the power has another name. -/
def mathMethod (method : String) : String :=
  if method = "pow" then "exponentiate" else method

end BigLower
