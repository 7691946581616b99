import BigLower.Pass.Basic

/-! # The lowering rules

Literals, constructor calls and operations are lowered on the way down, compound
assignments and member calls on the way up, when their parts are done.
-/

namespace BigLower

/-- What to do with a node once it has been entered. -/
inductive Step where
  /-- Nothing is left to do, not even below. -/
  | done
  /-- Go below, then see whether it is a member call. -/
  | below
  /-- Go below, then lower the compound assignment. -/
  | compound (method : String) (target value : Slot)
deriving DecidableEq

namespace Engine

variable {τ : Type} [Naming τ]

/-- A literal becomes a call of the library's factory with the digits as a string. -/
def lowerLiteral (E : Engine) (enclosing : Slot) (id : Nat) (digits : Name)
    (span : Span) : PassM τ Unit := do
  let callee ← E.libraryMember E.library.factory span
  let text ← PassM.alloc (.str digits) span
  let args ← PassM.allocList [some text]
  PassM.replace (some id) (.call (some callee) args)
  applied enclosing id .literal

/-- A call of the constructor, or of a member of it, becomes a call of the library's own. -/
def lowerConstructor (E : Engine) (enclosing : Slot) (id : Nat) (callee : Slot)
    (args : Range) : PassM τ Unit := do
  let old ← PassM.node callee
  let callee ← E.libraryMember (E.library.memberFor old.kind) old.span
  PassM.replace (some id) (.call (some callee) args)
  applied enclosing id .constructor

/-- An operation becomes a call of its library method with the operands as arguments. -/
def lowerOperation (E : Engine) (enclosing : Slot) (id : Nat) (span : Span)
    (method : String) (operands : List Slot) (rule : Rule) : PassM τ Unit := do
  let callee ← E.libraryMember (← PassM.intern method) span
  let args ← PassM.allocList operands
  PassM.replace (some id) (.call (some callee) args)
  applied enclosing id rule

def tryOperation (E : Engine) (enclosing : Slot) (id : Nat) (span : Span)
    (method? : Option String) (operands : List Slot) (rule : Rule) : PassM τ Unit :=
  match method? with
  | none => pure ()
  | some method => do
    if ← E.someBig operands then
      E.lowerOperation enclosing id span method operands rule

/--
A compound assignment becomes a plain one that stores the result of its library
method, called with a copy of the target and the value.
-/
def lowerCompound (E : Engine) (enclosing : Slot) (id : Nat) (method : String)
    (target value : Slot) : PassM τ Unit := do
  let operand ← PassM.copy target
  let span := (← PassM.node (some id)).span
  let callee ← E.libraryMember (← PassM.intern method) span
  let args ← PassM.allocList [operand, value]
  let call ← PassM.alloc (.call (some callee) args) span
  PassM.learn fun f => (f.markReplaced (some call)).markTainted (some call)
  PassM.replace (some id) (.assign .plain target (some call))
  applied enclosing id .compoundAssign

def enterNode (E : Engine) (enclosing : Slot) (id : Nat) (node : Node) : PassM τ Step :=
  match node.kind with
  | .bigInt digits => do
    E.lowerLiteral enclosing id digits node.span
    return .done
  | .call callee args => do
    if (← get).store.isConstructor E.library.constructor callee then
      E.lowerConstructor enclosing id callee args
    return .below
  | .binary op left right => do
    E.tryOperation enclosing id node.span op.method? [left, right] .binary
    return .below
  | .unary op operand => do
    E.tryOperation enclosing id node.span op.method? [operand] .unary
    return .below
  | .assign op target value =>
    match op.method? with
    | none => return .below
    | some method => do
      return if ← E.someBig [value] then .compound method target value else .below
  | _ => return .below

def enter (E : Engine) (enclosing : Slot) (id : Nat) : PassM τ Step := do
  let p ← get
  let flags := p.facts.flagsOf (some id)
  if flags.replaced || flags.settled then
    return .done
  else
    E.enterNode enclosing id (← p.store.node (some id))

/-- A member of the mathematics object becomes the member of the library that does its work. -/
def redirectMember (E : Engine) (callee object : Slot) (property : Name) : PassM τ Unit := do
  let p ← get
  if p.store.isIdent object E.library.math then
    let property ← PassM.intern (mathMethod (Naming.text p.names property))
    PassM.replace object (.ident E.library.library)
    PassM.replace callee (.member object property)

/--
A member call with a big-integer argument counts as lowered. If the member is one
of the mathematics object, the call goes to the library instead.
-/
def leave (E : Engine) (enclosing : Slot) (id : Nat) : PassM τ Unit := do
  let p ← get
  if E.memberCalls && !p.facts.isReplaced (some id) then
    match ← p.store.kind (some id) with
    | .call callee args =>
      match ← p.store.kind callee with
      | .member object property =>
        if ← E.someBig (← p.store.list args) then
          E.redirectMember callee object property
          applied enclosing id .methodCall
      | _ => pure ()
    | _ => pure ()

end Engine

end BigLower
