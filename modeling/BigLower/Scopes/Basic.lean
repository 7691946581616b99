import BigLower.Fault
import Std.Data.TreeMap

/-! # Scopes and bindings

Scopes are numbered as they are opened, bindings as they are declared. Every
scope but the first has a parent that was opened earlier. A binding is one name
in one scope, declared by one or more nodes. Two tables tie nodes to bindings:
which binding an identifier refers to, and which one a declaring node declares.
-/

namespace BigLower

inductive ScopeKind where
  | program
  | function
  | block
deriving DecidableEq

def ScopeKind.label : ScopeKind → String
  | program => "Program"
  | function => "Function"
  | block => "Block"

inductive BindingKind where
  | var
  | let_
  | const
  | param
  | function
  | importDefault
deriving DecidableEq

def BindingKind.label : BindingKind → String
  | var => "Var"
  | let_ => "Let"
  | const => "Const"
  | param => "Param"
  | function => "Function"
  | importDefault => "Import"

def DeclKeyword.bindingKind : DeclKeyword → BindingKind
  | var => .var
  | let_ => .let_
  | const => .const

structure Scope where
  kind : ScopeKind
  parent : Option Nat
  names : Std.TreeMap Name Nat := ∅

/-- A binding: a name, what declares it, the first node that does, and the scope it is in. -/
structure Binding where
  name : Name
  kind : BindingKind
  declaredBy : Nat
  scope : Nat
deriving DecidableEq

structure Declaration where
  name : Name
  kind : BindingKind
  node : Nat
deriving DecidableEq

structure Scopes where
  scopes : Array Scope := #[]
  bindings : Array Binding := #[]
  references : Std.TreeMap Slot Nat := ∅
  declarations : Std.TreeMap Nat Nat := ∅

namespace Scopes

def bindingOf (t : Scopes) (slot : Slot) : Option Nat := t.references[slot]?

def declaredBy (t : Scopes) (slot : Slot) : Option Nat :=
  slot.bind fun id => t.declarations[id]?

def openScope (t : Scopes) (kind : ScopeKind) (parent : Option Nat) : Nat × Scopes :=
  (t.scopes.size, { t with scopes := t.scopes.push { kind, parent } })

def binding? (t : Scopes) (scope : Nat) (name : Name) : Option Nat :=
  t.scopes[scope]?.bind fun entry => entry.names[name]?

def lookupWithin (t : Scopes) : Nat → Nat → Name → Option Nat
  | 0, _, _ => none
  | fuel + 1, scope, name =>
    match t.scopes[scope]? with
    | none => none
    | some entry =>
      match entry.names[name]?, entry.parent with
      | some binding, _ => some binding
      | none, some parent => t.lookupWithin fuel parent name
      | none, none => none

/--
The binding of a name in the innermost scope, from the given one outwards, that
declares it. A parent is older than its child, so the climb is no longer than
the scope's index.
-/
def lookup (t : Scopes) (scope : Nat) (name : Name) : Option Nat :=
  t.lookupWithin (scope + 1) scope name

/-- The binding of a name as seen from the scope of another binding, or from the first scope. -/
def lookupFrom (t : Scopes) (start : Option Nat) (name : Name) :
    Except Fault (Option Nat) := do
  let scope ← match start with
    | none => pure 0
    | some binding =>
      match t.bindings[binding]? with
      | some entry => pure entry.scope
      | none => throw .outOfBounds
  if scope < t.scopes.size then return t.lookup scope name else throw .outOfBounds

def functionScopeWithin (t : Scopes) : Nat → Nat → Nat
  | 0, scope => scope
  | fuel + 1, scope =>
    match t.scopes[scope]? with
    | some { kind := .block, parent := some parent, .. } => t.functionScopeWithin fuel parent
    | _ => scope

def functionScope (t : Scopes) (scope : Nat) : Nat :=
  t.functionScopeWithin scope scope

/-- Declare a name in a scope. A name that is already there keeps its binding. -/
def declare (t : Scopes) (scope : Nat) (d : Declaration) : Scopes :=
  match t.binding? scope d.name with
  | some binding => { t with declarations := t.declarations.insert d.node binding }
  | none =>
    let binding := t.bindings.size
    { t with
      bindings := t.bindings.push ⟨d.name, d.kind, d.node, scope⟩
      scopes := t.scopes.modify scope fun entry =>
        { entry with names := entry.names.insert d.name binding }
      declarations := t.declarations.insert d.node binding }

def declareAll (t : Scopes) (scope : Nat) (ds : Array Declaration) : Scopes :=
  ds.foldl (fun t d => t.declare scope d) t

def refer (t : Scopes) (id : Nat) (scope : Nat) (name : Name) : Scopes :=
  match t.lookup scope name with
  | some binding => { t with references := t.references.insert (some id) binding }
  | none => t

def copyReference (t : Scopes) (copy source : Slot) : Scopes :=
  match t.bindingOf source with
  | some binding => { t with references := t.references.insert copy binding }
  | none => t

end Scopes

end BigLower
