import BigLower.Scopes.Hoist

/-! # Resolving names

One walk over a unit opens its scopes, declares its names and ties every
identifier to the binding that it refers to.
-/

namespace BigLower

namespace Store

def declareBody (s : Store) (fuel : Nat) (scope : Nat) (body : Range) (t : Scopes) :
    Except Fault Scopes := do
  let vars ← s.vars fuel body
  let lexicals ← s.lexicals body
  return (t.declareAll (t.functionScope scope) vars).declareAll scope lexicals

/--
Resolve the names below a node that stands in a scope.

A program adds to the scope it stands in. A block opens a scope of its own
unless it is the body of a function, which shares the function's scope.
-/
def resolveNode (s : Store) : Nat → Nat → Slot → Scopes → Except Fault Scopes
  | 0, _, _, _ => throw .cyclic
  | _ + 1, _, none, _ => throw .outOfBounds
  | fuel + 1, scope, some id, t => do
    match ← s.kind (some id) with
    | .program body =>
      let t ← s.declareBody fuel scope body t
      (← s.list body).foldlM (fun t slot => s.resolveNode fuel scope slot t) t
    | .block body =>
      let (inner, t) := t.openScope .block (some scope)
      let t := t.declareAll inner (← s.lexicals body)
      (← s.list body).foldlM (fun t slot => s.resolveNode fuel inner slot t) t
    | .function _ params body | .arrow params body =>
      let (inner, t) := t.openScope .function (some scope)
      let t := t.declareAll inner (← s.params params)
      match body with
      | none => return t
      | some _ =>
        match ← s.kind body with
        | .block body =>
          let t ← s.declareBody fuel inner body t
          (← s.list body).foldlM (fun t slot => s.resolveNode fuel inner slot t) t
        | _ => s.resolveNode fuel inner body t
    | .ident name => return t.refer id scope name
    | _ => (← s.children (some id)).foldlM (fun t child => s.resolveNode fuel scope (some child) t) t

/--
The scopes of the unit in a slot. A slot without a node has the program scope
and nothing else.

No path in a store without cycles is longer than the store, so its size bounds
the depth.
-/
def resolve (s : Store) (root : Slot) : Except Fault Scopes :=
  let (scope, t) := ({} : Scopes).openScope .program none
  if s.contains root then s.resolveNode (s.size + 1) scope root t else .ok t

end Store

end BigLower
