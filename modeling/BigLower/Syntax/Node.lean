import BigLower.Names.Table
import BigLower.Syntax.Operator
import BigLower.Syntax.Span

/-! # Nodes

A node's kind says what it is and which parts it has. Parts are of two sorts:
slots, which hold one node or none, and lists. `Kind` leaves open what a name,
a slot and a list are, so that one type serves the stored node, whose slots are
indices and whose lists are ranges, and the nested tree, whose slots and lists
hold subtrees.
-/

namespace BigLower

/-- A place for one node: the node's index in its store, or nothing. -/
abbrev Slot := Option Nat

namespace Slot

/-- The 32-bit word that marks an absent child. -/
def absentWord : UInt32 := 0xFFFFFFFF

def ofWord (word : UInt32) : Slot :=
  if word = absentWord then none else some word.toNat

def toWord : Slot → Nat
  | none => absentWord.toNat
  | some id => id

def describe : Slot → String
  | none => "NodeId::INVALID"
  | some id => s!"NodeId({id})"

theorem toWord_ofWord {word : UInt32} : (ofWord word).toWord = word.toNat := by
  unfold ofWord
  split
  · rename_i h
    subst h
    rfl
  · rfl

end Slot

structure Range where
  start : Nat := 0
  len : Nat := 0
deriving DecidableEq

namespace Range

def empty : Range := {}

def isEmpty (r : Range) : Bool := r.len == 0

def stop (r : Range) : Nat := r.start + r.len

def describe (r : Range) : String := s!"NodeRange({r.start}..{r.stop})"

end Range

/-- What a node is, over names `ν`, slots `σ` and lists `ρ`. -/
inductive Kind (ν σ ρ : Type) where
  | program (body : ρ)
  | importDefault (binder source : ν)
  | varDecl (keyword : DeclKeyword) (declarators : ρ)
  | declarator (name : ν) (value : σ)
  | function (name : ν) (params : ρ) (body : σ)
  | param (name : ν)
  | ret (value : σ)
  | cond (test yes no : σ)
  | block (body : ρ)
  | exprStmt (expr : σ)
  | bigInt (digits : ν)
  | number (digits : ν)
  | str (content : ν)
  | bool (value : Bool)
  | null
  | ident (name : ν)
  | member (object : σ) (property : ν)
  | call (callee : σ) (args : ρ)
  | binary (op : BinaryOp) (left right : σ)
  | unary (op : UnaryOp) (operand : σ)
  | assign (op : AssignOp) (target value : σ)
  | array (elements : ρ)
  | arrow (params : ρ) (body : σ)
deriving DecidableEq

namespace Kind

variable {ν σ ρ σ' ρ' : Type}

def label : Kind ν σ ρ → String
  | program _ => "program"
  | importDefault .. => "import"
  | varDecl .. => "variable declaration"
  | declarator .. => "variable declarator"
  | function .. => "function declaration"
  | param _ => "parameter"
  | ret _ => "return"
  | cond .. => "if"
  | block _ => "block"
  | exprStmt _ => "expression statement"
  | bigInt _ => "bigint literal"
  | number _ => "number literal"
  | str _ => "string literal"
  | bool _ => "boolean literal"
  | null => "null"
  | ident _ => "identifier"
  | member .. => "member access"
  | call .. => "call"
  | binary .. => "binary operation"
  | unary .. => "unary operation"
  | assign .. => "assignment"
  | array _ => "array"
  | arrow .. => "arrow function"

def isExpression : Kind ν σ ρ → Bool
  | bigInt _ | number _ | str _ | bool _ | null | ident _ | member .. | call .. | binary ..
  | unary .. | assign .. | array _ | arrow .. => true
  | _ => false

/-- The parts of a kind in evaluation order, slots on the left and lists on the right. -/
def parts : Kind ν σ ρ → List (σ ⊕ ρ)
  | program body => [.inr body]
  | importDefault .. => []
  | varDecl _ declarators => [.inr declarators]
  | declarator _ value => [.inl value]
  | function _ params body => [.inr params, .inl body]
  | param _ => []
  | ret value => [.inl value]
  | cond test yes no => [.inl test, .inl yes, .inl no]
  | block body => [.inr body]
  | exprStmt expr => [.inl expr]
  | bigInt _ | number _ | str _ | bool _ | null | ident _ => []
  | member object _ => [.inl object]
  | call callee args => [.inl callee, .inr args]
  | binary _ left right => [.inl left, .inl right]
  | unary _ operand => [.inl operand]
  | assign _ target value => [.inl target, .inl value]
  | array elements => [.inr elements]
  | arrow params body => [.inr params, .inl body]

/--
Act on every part in evaluation order and put the results in the places of the parts.

An initial value, a returned value and an else branch are optional in the
source text; every other slot is one that the text cannot do without.
-/
@[specialize] def traverse {m : Type → Type} [Monad m] (onNeeded onOptional : σ → m σ')
    (onList : ρ → m ρ') : Kind ν σ ρ → m (Kind ν σ' ρ')
  | program body => return .program (← onList body)
  | importDefault binder source => return .importDefault binder source
  | varDecl keyword declarators => return .varDecl keyword (← onList declarators)
  | declarator name value => return .declarator name (← onOptional value)
  | function name params body => return .function name (← onList params) (← onNeeded body)
  | param name => return .param name
  | ret value => return .ret (← onOptional value)
  | cond test yes no => return .cond (← onNeeded test) (← onNeeded yes) (← onOptional no)
  | block body => return .block (← onList body)
  | exprStmt expr => return .exprStmt (← onNeeded expr)
  | bigInt digits => return .bigInt digits
  | number digits => return .number digits
  | str content => return .str content
  | bool value => return .bool value
  | null => return .null
  | ident name => return .ident name
  | member object property => return .member (← onNeeded object) property
  | call callee args => return .call (← onNeeded callee) (← onList args)
  | binary op left right => return .binary op (← onNeeded left) (← onNeeded right)
  | unary op operand => return .unary op (← onNeeded operand)
  | assign op target value => return .assign op (← onNeeded target) (← onNeeded value)
  | array elements => return .array (← onList elements)
  | arrow params body => return .arrow (← onList params) (← onNeeded body)

end Kind

abbrev NodeKind := Kind Name Slot Range

end BigLower
