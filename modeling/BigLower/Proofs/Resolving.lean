import BigLower.Proofs.Declaring

/-! # Resolving a tree

The walk that resolves names can be told on the tree alone: enter a node, which may
open a scope and declare names, and then go on with what is inside. A store that
holds the tree resolves it in this way or faults, and cannot fault if the tree has no
gaps. Only identifiers of the tree come to refer to anything.
-/

namespace BigLower

namespace Scopes

variable (t : Scopes)

def declareStatements (scope : Nat) (body : List (Tree.Part Nat Name)) : Scopes :=
  (t.declareAll (t.functionScope scope) (Tree.hoistedList body).toArray).declareAll scope
    (Tree.lexicals body).toArray

theorem bindingOf_declare (scope : Nat) (d : Declaration) (slot : Slot) :
    (t.declare scope d).bindingOf slot = t.bindingOf slot := by
  unfold declare
  split <;> rfl

theorem bindingOf_declareAll (scope : Nat) (ds : Array Declaration) (slot : Slot) :
    (t.declareAll scope ds).bindingOf slot = t.bindingOf slot := by
  unfold declareAll
  rw [← Array.foldl_toList]
  induction ds.toList generalizing t with
  | nil => rfl
  | cons d rest ih => rw [List.foldl_cons, ih, bindingOf_declare]

theorem bindingOf_refer {id : Nat} (scope : Nat) (name : Name) {slot : Slot}
    (other : slot ≠ some id) : (t.refer id scope name).bindingOf slot = t.bindingOf slot := by
  unfold refer
  split
  · simp [bindingOf, Std.TreeMap.getElem?_insert, Ne.symm other]
  · rfl

end Scopes

namespace Tree

/-! ## The walk on trees -/

def statements? : Part Nat Name → Option (List (Part Nat Name))
  | some (.node _ (.block list)) => some list
  | _ => none

/--
What is resolved inside a node: all its children, but of a function only the body,
and if that is a block, then what is in the block.
-/
def visited (T : Tree Nat Name) : List (Tree Nat Name) :=
  match T.kind with
  | .function _ _ body | .arrow _ body =>
    match statements? body with
    | some list => list.filterMap id
    | none => body.toList
  | _ => T.children

def enter (T : Tree Nat Name) (scope : Nat) (t : Scopes) : Nat × Scopes :=
  match T.kind with
  | .program body => (scope, t.declareStatements scope body)
  | .block body =>
    let (inner, t) := t.openScope .block (some scope)
    (inner, t.declareAll inner (lexicals body).toArray)
  | .function _ params body | .arrow params body =>
    let (inner, t) := t.openScope .function (some scope)
    let t := t.declareAll inner (parameters params).toArray
    match statements? body with
    | some list => (inner, t.declareStatements inner list)
    | none => (inner, t)
  | _ => (scope, t)

section Visited

variable {T c : Tree Nat Name}

theorem statements?_eq_some {part : Part Nat Name} {list : List (Part Nat Name)}
    (block : statements? part = some list) : ∃ x, part = some (.node x (.block list)) := by
  unfold statements? at block
  split at block
  · cases block
    exact ⟨_, rfl⟩
  · cases block

theorem statements?_of_block {list : List (Part Nat Name)} (block : T.kind = .block list) :
    statements? (some T) = some list := by
  obtain ⟨x, k⟩ := T
  cases block
  rfl

theorem statements?_eq_none (other : ∀ list, T.kind ≠ .block list) : statements? (some T) = none := by
  cases block : statements? (some T) with
  | none => rfl
  | some list =>
    obtain ⟨x, same⟩ := statements?_eq_some block
    cases same
    exact (other list rfl).elim

theorem visited_of_statements {list : List (Part Nat Name)}
    (own : T.kind = .program list ∨ T.kind = .block list) : T.visited = list.filterMap id := by
  rcases own with own | own <;> simp [visited, children, own, Kind.slots, Kind.parts]

/-- What is inside a body is below it. -/
theorem mem_body {body : Part Nat Name} (inside : ∀ b ∈ body, b ∈ T.children)
    (mem : c ∈ (match statements? body with
      | some list => list.filterMap id
      | none => body.toList)) :
    c ∈ T.children ∨ ∃ b ∈ T.children, c ∈ b.children := by
  cases block : statements? body with
  | none =>
    rw [block] at mem
    exact .inl (inside c (by simpa using mem))
  | some list =>
    rw [block] at mem
    obtain ⟨x, rfl⟩ := statements?_eq_some block
    refine .inr ⟨_, inside _ rfl, ?_⟩
    simpa [children, Tree.kind, Kind.slots, Kind.parts] using mem

theorem mem_visited (mem : c ∈ T.visited) : c ∈ T.children ∨ ∃ b ∈ T.children, c ∈ b.children := by
  unfold visited at mem
  cases own : T.kind with
  | function _ params body | arrow params body =>
    rw [own] at mem
    refine mem_body (fun b same => ?_) mem
    cases same
    simp [mem_children_iff, own, Kind.slots, Kind.parts]
  | _ =>
    rw [own] at mem
    exact .inl mem

theorem subtree_of_visited (mem : c ∈ T.visited) : c ∈ T.subtrees := by
  rcases mem_visited mem with child | ⟨b, child, child'⟩
  · exact child_mem_subtrees child
  · exact subtrees_trans (child_mem_subtrees child) (child_mem_subtrees child')

theorem height_lt_of_visited (mem : c ∈ T.visited) : c.height < T.height := by
  rcases mem_visited mem with child | ⟨b, child, child'⟩
  · exact height_lt child
  · exact (height_lt child').trans (height_lt child)

/-- What holds of a tree if it holds of all that is visited inside, holds of every tree. -/
theorem induction_visited {P : Tree Nat Name → Prop} (step : ∀ T, (∀ c ∈ T.visited, P c) → P T)
    (T : Tree Nat Name) : P T := by
  induction n : T.height using Nat.strong_induction_on generalizing T with
  | h n ih =>
    refine step T fun c mem => ih c.height ?_ c rfl
    have := height_lt_of_visited mem
    omega

end Visited

def resolveIn (T : Tree Nat Name) (scope : Nat) (t : Scopes) : Scopes :=
  match T.kind with
  | .ident name => t.refer T.tag scope name
  | _ =>
    let (inner, t) := T.enter scope t
    T.visited.attach.foldl (fun t c => c.1.resolveIn inner t) t
termination_by T.height
decreasing_by exact height_lt_of_visited c.2

theorem resolveIn_ident {T : Tree Nat Name} {name : Name} (ident : T.kind = .ident name)
    (scope : Nat) (t : Scopes) : T.resolveIn scope t = t.refer T.tag scope name := by
  rw [resolveIn, ident]

theorem resolveIn_eq {T : Tree Nat Name} (other : ∀ name, T.kind ≠ .ident name) (scope : Nat)
    (t : Scopes) : T.resolveIn scope t =
      T.visited.foldl (fun t' c => c.resolveIn (T.enter scope t).1 t') (T.enter scope t).2 := by
  rw [resolveIn]
  cases own : T.kind with
  | ident name => exact (other name own).elim
  | _ => exact List.foldl_attach (l := T.visited) (f := fun t' c => c.resolveIn (T.enter scope t).1 t')

def scopesOf (T : Tree Nat Name) : Scopes :=
  T.resolveIn 0 (({} : Scopes).openScope .program none).2

end Tree

namespace Store

variable {s : Store} {T : Tree Nat Name}

/-! ## The walk in a store -/

section Walk

variable {sure : Prop} {fuel : Nat}

namespace HoldsList

variable {range : Range} {list : List (Tree.Part Nat Name)} (h : s.HoldsList sure fuel range list)

include h

theorem declareBody (scope : Nat) (t : Scopes) :
    Comes sure (s.declareBody fuel scope range t) (t.declareStatements scope list) :=
  h.vars.bind (h.lexicals.bind (.of_ok rfl))

theorem resolveEach {scope : Nat}
    (each : ∀ c, some c ∈ list → ∀ t,
      Comes sure (s.resolveNode fuel scope (some c.tag) t) (c.resolveIn scope t)) (t : Scopes) :
    Comes sure (s.list range >>= fun slots =>
        slots.foldlM (fun t slot => s.resolveNode fuel scope slot t) t)
      ((list.filterMap id).foldl (fun t c => c.resolveIn scope t) t) := by
  rw [bind_of_eq h.read, List.foldlM_map, List.foldl_filterMap]
  refine .foldlM (fun part mem t => ?_) t
  cases part with
  | none =>
    have unsure : ¬ sure := fun sure => h.full sure mem
    cases fuel with
    | zero => exact .of_error rfl unsure
    | succ fuel => exact .of_error rfl unsure
  | some c => exact each c mem t

end HoldsList

/-- A store resolves a tree that it holds as the tree tells. The induction is on the fuel. -/
theorem Holds.resolveNode (holds : s.Holds T) (entries : sure → T.EntriesPresent)
    (enough : sure → T.height < fuel) (scope : Nat) (t : Scopes) :
    Comes sure (s.resolveNode fuel scope (some T.tag) t) (T.resolveIn scope t) := by
  induction fuel generalizing T scope t with
  | zero => exact .of_error rfl fun h => Nat.not_lt_zero _ (enough h)
  | succ fuel ih =>
    -- The walk through a list, from what is told of its entries.
    have each {range : Range} {list : List (Tree.Part Nat Name)}
        (inner : s.HoldsList sure fuel range list) (scope : Nat) (t : Scopes) :=
      inner.resolveEach (fun c mem t => ih (inner.held c mem) (fun h => inner.entries h c mem)
        (fun h => inner.enough h c mem) scope t) t
    have lower {c : Tree Nat Name} (mem : c ∈ T.children) (h : sure) : c.height < fuel :=
      Nat.lt_of_lt_of_le (Tree.height_lt mem) (Nat.le_of_lt_succ (enough h))
    have child {c : Tree Nat Name} (mem : c ∈ T.children) (scope : Nat) (t : Scopes) :
        Comes sure (s.resolveNode fuel scope (some c.tag) t) (c.resolveIn scope t) :=
      ih (holds.child mem) (fun h => (entries h).child mem) (lower mem) scope t
    obtain ⟨range, here, lists⟩ := holds.kind_holdsList entries fun h => Nat.le_of_lt_succ (enough h)
    have shown := @Tree.resolveIn_eq T
    unfold Store.resolveNode
    refine .of_eq (bind_of_eq here) ?_
    cases kind : T.kind with
    | program list =>
      have inner := lists list (by simp [kind, Kind.fullLists])
      rw [shown (by simp [kind]), Tree.visited_of_statements (.inl kind), Tree.enter, kind]
      exact (inner.declareBody scope t).bind (each inner scope _)
    | block list =>
      have inner := lists list (by simp [kind, Kind.fullLists])
      rw [shown (by simp [kind]), Tree.visited_of_statements (.inr kind), Tree.enter, kind]
      exact inner.lexicals.bind (each inner _ _)
    | function _ params body | arrow params body =>
      have parameters := (lists params (by simp [kind, Kind.fullLists])).params
      rw [shown (by simp [kind])]
      refine parameters.bind ?_
      cases body with
      | none =>
        refine .of_ok ?_
        simp [Tree.enter, Tree.visited, kind, Tree.statements?, Scopes.openScope, pure, Except.pure]
      | some b =>
        have mem : b ∈ T.children := by simp [Tree.mem_children_iff, kind, Kind.slots, Kind.parts]
        obtain ⟨range', inside, lists'⟩ := (holds.child mem).kind_holdsList
          (fun h => (entries h).child mem) fun h => Nat.le_of_lt (lower mem h)
        refine .of_eq (bind_of_eq inside) ?_
        cases block : b.kind with
        | block list =>
          have inner := lists' list (by simp [block, Kind.fullLists])
          have body := Tree.statements?_of_block block
          simp only [Tree.enter, Tree.visited, kind, body]
          exact (inner.declareBody _ _).bind (each inner _ _)
        | _ =>
          have body : Tree.statements? (some b) = none := Tree.statements?_eq_none (by simp [block])
          simp only [Tree.enter, Tree.visited, kind, body]
          exact child mem _ _
    | ident name =>
      rw [Tree.resolveIn_ident kind]
      exact .of_ok rfl
    | _ =>
      rw [shown (by simp [kind])]
      refine .of_eq (bind_of_eq holds.children) ?_
      simp only [Tree.enter, Tree.visited, kind]
      rw [List.foldlM_map]
      exact .foldlM (fun c mem t => child mem scope t) t

theorem Holds.resolve (holds : s.Holds T) (entries : sure → T.EntriesPresent) :
    Comes sure (s.resolve (some T.tag)) T.scopesOf := by
  have inside : s.contains (some T.tag) = true := decide_eq_true (holds.lt_size T.tag_mem_ids)
  have bound := holds.height_le
  unfold Store.resolve
  simp only [inside, if_true]
  exact holds.resolveNode entries (fun _ => by omega) _ _

end Walk

theorem resolve_eq (holds : s.Holds T) (entries : T.EntriesPresent) :
    s.resolve (some T.tag) = .ok T.scopesOf :=
  (holds.resolve fun _ : True => entries).total trivial

end Store

/-! ## What comes to refer -/

namespace Tree

theorem bindingOf_enter (T : Tree Nat Name) (scope : Nat) (t : Scopes) (slot : Slot) :
    (T.enter scope t).2.bindingOf slot = t.bindingOf slot := by
  have opened (kind : ScopeKind) (ds : Array Declaration) :
      ((t.openScope kind (some scope)).2.declareAll t.scopes.size ds).bindingOf slot = t.bindingOf slot :=
    Scopes.bindingOf_declareAll ..
  have statements (t : Scopes) (scope : Nat) (list : List (Part Nat Name)) :
      (t.declareStatements scope list).bindingOf slot = t.bindingOf slot := by
    unfold Scopes.declareStatements
    rw [Scopes.bindingOf_declareAll, Scopes.bindingOf_declareAll]
  unfold enter
  cases T.kind with
  | program list => exact statements t scope list
  | block list => exact opened .block _
  | function _ params body | arrow params body =>
    dsimp only
    split
    · exact (statements ..).trans (opened .function _)
    · exact opened .function _
  | _ => rfl

/-- Nothing outside of a tree comes to refer to a variable when the tree is resolved. -/
theorem bindingOf_resolveIn {T : Tree Nat Name} {x : Nat} (outside : x ∉ T.ids) (scope : Nat)
    (t : Scopes) : (T.resolveIn scope t).bindingOf (some x) = t.bindingOf (some x) := by
  induction T using induction_visited generalizing scope t with
  | step T ih =>
    by_cases ident : ∃ name, T.kind = .ident name
    · obtain ⟨name, ident⟩ := ident
      rw [resolveIn_ident ident]
      apply Scopes.bindingOf_refer
      intro same
      cases same
      exact outside T.tag_mem_ids
    · rw [resolveIn_eq (by simpa using ident)]
      refine List.foldlRecOn (motive := fun t' : Scopes => t'.bindingOf (some x) = t.bindingOf (some x))
        T.visited _ (bindingOf_enter ..) fun t' same c mem => ?_
      have apart : x ∉ c.ids := fun inside =>
        outside (mem_ids_of_subtree (subtree_of_visited mem) inside)
      exact (ih c mem apart _ t').trans same

end Tree

/-- A tree that a store holds without gaps can be resolved, and only its nodes refer to variables. -/
theorem Store.exists_resolve {s : Store} {T : Tree Nat Name} (holds : s.Holds T)
    (entries : T.EntriesPresent) : ∃ t, s.resolve (some T.tag) = .ok t ∧
      ∀ x, x ∉ T.ids → t.bindingOf (some x) = none :=
  ⟨_, resolve_eq holds entries, fun _ outside => Tree.bindingOf_resolveIn outside ..⟩

end BigLower
