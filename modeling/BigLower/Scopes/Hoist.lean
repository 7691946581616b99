import BigLower.Scopes.Basic
import BigLower.Store.Basic

/-! # Declarations of a list of statements

Names are declared before the statements that use them are looked at. A list of
statements declares its `let` and `const` variables, its functions and its
imports; a function or program declares, besides, every `var` that its
statements reach through blocks and conditionals.
-/

namespace BigLower

namespace Store

def declarators (s : Store) (kind : BindingKind) (range : Range) (found : Array Declaration) :
    Except Fault (Array Declaration) := do
  (← s.list range).foldlM (fun found slot => do
    match slot, ← s.kind slot with
    | some id, .declarator name _ => return found.push ⟨name, kind, id⟩
    | _, _ => return found) found

def params (s : Store) (range : Range) : Except Fault (Array Declaration) := do
  (← s.list range).foldlM (fun found slot => do
    match slot, ← s.kind slot with
    | some id, .param name => return found.push ⟨name, .param, id⟩
    | _, _ => return found) #[]

def lexicals (s : Store) (body : Range) : Except Fault (Array Declaration) := do
  (← s.list body).foldlM (fun found slot => do
    match slot, ← s.kind slot with
    | some _, .varDecl keyword range =>
      if keyword.isLexical then s.declarators keyword.bindingKind range found else return found
    | some id, .function name _ _ => return found.push ⟨name, .function, id⟩
    | some id, .importDefault name _ => return found.push ⟨name, .importDefault, id⟩
    | _, _ => return found) #[]

/-- The `var` declarations of one statement, through blocks and conditionals. -/
def varsOf (s : Store) : Nat → Slot → Array Declaration → Except Fault (Array Declaration)
  | 0, _, _ => throw .cyclic
  | _ + 1, none, found => return found
  | fuel + 1, some id, found => do
    match ← s.kind (some id) with
    | .varDecl .var range => s.declarators .var range found
    | .block body => (← s.list body).foldlM (fun found slot => s.varsOf fuel slot found) found
    | .cond _ yes no => s.varsOf fuel no (← s.varsOf fuel yes found)
    | _ => return found

/-- The `var` declarations that a list of statements reaches without entering a function. -/
def vars (s : Store) (fuel : Nat) (body : Range) : Except Fault (Array Declaration) := do
  (← s.list body).foldlM (fun found slot => s.varsOf fuel slot found) #[]

end Store

end BigLower
