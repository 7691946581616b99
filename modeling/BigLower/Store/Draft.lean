import BigLower.Store.Basic

/-! # Drafts

A draft grows a store bottom-up. Every step adds one node, or a few, below the
current span, and returns the new node's index, which later steps use as a
child. Texts are interned as the nodes that hold them are added, and a list is
stored just before the node that owns it.
-/

namespace BigLower

/-- A store and a table of names under construction, and the span of new nodes. -/
structure Draft where
  store : Store := {}
  names : Names := .fresh
  span : Span := .dummy

abbrev DraftM := StateT Draft (Except Fault)

namespace Draft

def name (text : String) : DraftM Name :=
  modifyGet fun d =>
    let (name, names) := d.names.intern text
    (name, { d with names })

def node (kind : NodeKind) : DraftM Nat := fun d => do
  let (id, store) ← d.store.alloc kind d.span
  return (id, { d with store })

def list (slots : List Slot) : DraftM Range := fun d => do
  let (range, store) ← d.store.allocList slots
  return (range, { d with store })

/-- Run a step with another span for the nodes it adds; afterwards the old span is back. -/
def withSpan {m : Type → Type} [Monad m] {β : Type} (span : Span) (step : StateT Draft m β) :
    StateT Draft m β := do
  let outer := (← get).span
  modify fun d => { d with span }
  let result ← step
  modify fun d => { d with span := outer }
  return result

/-! ## Statements -/

def program (body : List Slot) : DraftM Nat := do
  node (.program (← list body))

def importDefault (binder source : String) : DraftM Nat := do
  let binder ← name binder
  let source ← name source
  node (.importDefault binder source)

def varDecl (keyword : DeclKeyword) (declarators : List Slot) : DraftM Nat := do
  node (.varDecl keyword (← list declarators))

def declarator (text : String) (value : Slot) : DraftM Nat := do
  node (.declarator (← name text) value)

def param (text : String) : DraftM Nat := do
  node (.param (← name text))

def params (texts : List String) : DraftM Range := do
  let ids ← texts.mapM param
  list (ids.map some)

def function (text : String) (paramTexts : List String) (body : List Slot) : DraftM Nat := do
  let name ← name text
  let params ← params paramTexts
  let block ← node (.block (← list body))
  node (.function name params (some block))

def ret (value : Slot) : DraftM Nat := node (.ret value)

def cond (test yes no : Slot) : DraftM Nat := node (.cond test yes no)

def block (body : List Slot) : DraftM Nat := do
  node (.block (← list body))

def exprStmt (expr : Slot) : DraftM Nat := node (.exprStmt expr)

/-! ## Expressions -/

def bigInt (digits : String) : DraftM Nat := do
  node (.bigInt (← name digits))

def number (digits : String) : DraftM Nat := do
  node (.number (← name digits))

def str (content : String) : DraftM Nat := do
  node (.str (← name content))

def bool (value : Bool) : DraftM Nat := node (.bool value)

def null : DraftM Nat := node .null

def ident (text : String) : DraftM Nat := do
  node (.ident (← name text))

def member (object : Slot) (property : String) : DraftM Nat := do
  node (.member object (← name property))

/-- A dotted path: an identifier, and a member for each further segment. -/
def path : List String → DraftM Nat
  | [] => throw .emptyPath
  | first :: rest => do
    rest.foldlM (fun object property => member (some object) property) (← ident first)

def call (callee : Slot) (args : List Slot) : DraftM Nat := do
  node (.call callee (← list args))

def binary (op : BinaryOp) (left right : Slot) : DraftM Nat := node (.binary op left right)

def unary (op : UnaryOp) (operand : Slot) : DraftM Nat := node (.unary op operand)

def assign (op : AssignOp) (target value : Slot) : DraftM Nat := node (.assign op target value)

def array (elements : List Slot) : DraftM Nat := do
  node (.array (← list elements))

def arrow (paramTexts : List String) (body : Slot) : DraftM Nat := do
  node (.arrow (← params paramTexts) body)

end Draft

end BigLower
