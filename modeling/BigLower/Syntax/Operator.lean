/-! # Operators

The binary, unary and assignment operators of the source language, with their
symbols, how tightly the binary ones bind, and the operator that a compound
assignment applies before it stores.
-/

namespace BigLower

inductive BinaryOp where
  | add
  | sub
  | mul
  | div
  | rem
  | pow
  | shiftLeft
  | shiftRight
  | shiftRightZero
  | bitAnd
  | bitOr
  | bitXor
  | lt
  | gt
  | le
  | ge
  | isIn
  | instanceOf
  | looseEq
  | looseNe
  | strictEq
  | strictNe
  | and
  | or
  | coalesce
deriving DecidableEq

namespace BinaryOp

def all : List BinaryOp :=
  [add, sub, mul, div, rem, pow, shiftLeft, shiftRight, shiftRightZero, bitAnd, bitOr, bitXor,
    lt, gt, le, ge, isIn, instanceOf, looseEq, looseNe, strictEq, strictNe, and, or, coalesce]

def symbol : BinaryOp → String
  | add => "+"
  | sub => "-"
  | mul => "*"
  | div => "/"
  | rem => "%"
  | pow => "**"
  | shiftLeft => "<<"
  | shiftRight => ">>"
  | shiftRightZero => ">>>"
  | bitAnd => "&"
  | bitOr => "|"
  | bitXor => "^"
  | lt => "<"
  | gt => ">"
  | le => "<="
  | ge => ">="
  | isIn => "in"
  | instanceOf => "instanceof"
  | looseEq => "=="
  | looseNe => "!="
  | strictEq => "==="
  | strictNe => "!=="
  | and => "&&"
  | or => "||"
  | coalesce => "??"

def ofSymbol? (text : String) : Option BinaryOp :=
  all.find? fun op => op.symbol == text

/-- How loosely the operator binds: a smaller number binds tighter. -/
def precedence : BinaryOp → Nat
  | pow => 2
  | mul | div | rem => 3
  | add | sub => 4
  | shiftLeft | shiftRight | shiftRightZero => 5
  | lt | gt | le | ge | isIn | instanceOf => 6
  | looseEq | looseNe | strictEq | strictNe => 7
  | bitAnd => 8
  | bitXor => 9
  | bitOr => 10
  | and => 11
  | or => 12
  | coalesce => 13

def isRightAssoc : BinaryOp → Bool
  | pow => true
  | _ => false

theorem mem_all (op : BinaryOp) : op ∈ all := by
  cases op <;> decide

@[simp] theorem ofSymbol?_symbol (op : BinaryOp) : ofSymbol? op.symbol = some op := by
  cases op <;> decide

end BinaryOp

inductive UnaryOp where
  | neg
  | plus
  | not
  | bitNot
  | typeOf
  | void
deriving DecidableEq

namespace UnaryOp

def all : List UnaryOp :=
  [neg, plus, not, bitNot, typeOf, void]

def symbol : UnaryOp → String
  | neg => "-"
  | plus => "+"
  | not => "!"
  | bitNot => "~"
  | typeOf => "typeof"
  | void => "void"

def ofSymbol? (text : String) : Option UnaryOp :=
  all.find? fun op => op.symbol == text

/-- An operator spelled as a word needs a blank before its operand. -/
def isKeyword : UnaryOp → Bool
  | typeOf | void => true
  | _ => false

@[simp] theorem ofSymbol?_symbol (op : UnaryOp) : ofSymbol? op.symbol = some op := by
  cases op <;> decide

end UnaryOp

inductive AssignOp where
  | plain
  | add
  | sub
  | mul
  | div
  | rem
  | pow
  | shiftLeft
  | shiftRight
  | shiftRightZero
  | bitAnd
  | bitOr
  | bitXor
  | and
  | or
  | coalesce
deriving DecidableEq

namespace AssignOp

def all : List AssignOp :=
  [plain, add, sub, mul, div, rem, pow, shiftLeft, shiftRight, shiftRightZero, bitAnd, bitOr,
    bitXor, and, or, coalesce]

def base? : AssignOp → Option BinaryOp
  | plain => none
  | add => some .add
  | sub => some .sub
  | mul => some .mul
  | div => some .div
  | rem => some .rem
  | pow => some .pow
  | shiftLeft => some .shiftLeft
  | shiftRight => some .shiftRight
  | shiftRightZero => some .shiftRightZero
  | bitAnd => some .bitAnd
  | bitOr => some .bitOr
  | bitXor => some .bitXor
  | and => some .and
  | or => some .or
  | coalesce => some .coalesce

def symbol (op : AssignOp) : String :=
  match op.base? with
  | none => "="
  | some base => base.symbol ++ "="

def ofSymbol? (text : String) : Option AssignOp :=
  all.find? fun op => op.symbol == text

@[simp] theorem ofSymbol?_symbol (op : AssignOp) : ofSymbol? op.symbol = some op := by
  cases op <;> decide

end AssignOp

inductive DeclKeyword where
  | var
  | let_
  | const
deriving DecidableEq

namespace DeclKeyword

def all : List DeclKeyword :=
  [var, let_, const]

def text : DeclKeyword → String
  | var => "var"
  | let_ => "let"
  | const => "const"

def ofText? (text : String) : Option DeclKeyword :=
  all.find? fun keyword => keyword.text == text

/-- A lexical keyword declares in the block it stands in; `var` declares in the whole function. -/
def isLexical : DeclKeyword → Bool
  | var => false
  | let_ | const => true

end DeclKeyword

end BigLower
