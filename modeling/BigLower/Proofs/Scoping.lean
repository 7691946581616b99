import BigLower.Proofs.Resolving

/-! # Lexical scoping

Resolving ties an identifier to the innermost enclosing declaration of its name. The
scopes that the walk makes are those of the nodes that open one, each shows what its
node declares, and from a scope the look-up climbs along the nodes around it.
-/

namespace BigLower

namespace Scopes

variable {t t' t'' : Scopes} {n : Nat}

/-! ## Growing scopes -/

/-- More was declared, but not in the first `n` scopes; no scope changed its place. -/
structure Extends (n : Nat) (t t' : Scopes) : Prop where
  size : t.scopes.size ≤ t'.scopes.size
  kept : ∀ i, i < n → t'.scopes[i]? = t.scopes[i]?
  bindings : ∀ (b : Nat) entry, t.bindings[b]? = some entry → t'.bindings[b]? = some entry
  places : ∀ (i : Nat) scope, t.scopes[i]? = some scope →
    ∃ scope', t'.scopes[i]? = some scope' ∧ scope'.kind = scope.kind ∧ scope'.parent = scope.parent

namespace Extends

theorem of_eq (scopes : t'.scopes = t.scopes) (bindings : t'.bindings = t.bindings) :
    Extends n t t' where
  size := by rw [scopes]
  kept _ _ := by rw [scopes]
  bindings _ _ found := bindings ▸ found
  places _ scope found := ⟨scope, scopes ▸ found, rfl, rfl⟩

theorem trans (first : Extends n t t') (second : Extends n t' t'') : Extends n t t'' where
  size := Nat.le_trans first.size second.size
  kept i bound := (second.kept i bound).trans (first.kept i bound)
  bindings b entry found := second.bindings b entry (first.bindings b entry found)
  places i scope found := by
    obtain ⟨scope', found', kind, parent⟩ := first.places i scope found
    obtain ⟨scope'', found'', kind', parent'⟩ := second.places i scope' found'
    exact ⟨scope'', found'', kind'.trans kind, parent'.trans parent⟩

theorem mono {m : Nat} (h : Extends n t t') (fewer : m ≤ n) : Extends m t t' :=
  { h with kept := fun i bound => h.kept i (Nat.lt_of_lt_of_le bound fewer) }

theorem binding? (h : Extends n t t') {i : Nat} (bound : i < n) (name : Name) :
    t'.binding? i name = t.binding? i name := by
  unfold Scopes.binding?
  rw [h.kept i bound]

end Extends

theorem extends_openScope (t : Scopes) (kind : ScopeKind) (parent : Option Nat) :
    Extends t.scopes.size t (t.openScope kind parent).2 where
  size := by simp [openScope]
  kept i bound := by simp [openScope, Array.getElem?_push, Nat.ne_of_lt bound]
  bindings _ _ found := found
  places i scope found := by
    have bound : i < t.scopes.size := (Array.getElem?_eq_some_iff.mp found).choose
    exact ⟨scope, by simpa [openScope, Array.getElem?_push, Nat.ne_of_lt bound] using found, rfl, rfl⟩

theorem extends_declare (t : Scopes) (i : Nat) (d : Declaration) : Extends i t (t.declare i d) := by
  unfold declare
  split
  · exact .of_eq rfl rfl
  · refine ⟨by simp, fun j bound => ?_, fun b entry found => ?_, fun j scope found => ?_⟩
    · simp [Array.getElem?_modify, Nat.ne_of_gt bound]
    · have bound : b < t.bindings.size := (Array.getElem?_eq_some_iff.mp found).choose
      simpa [Array.getElem?_push, Nat.ne_of_lt bound] using found
    · by_cases same : i = j
      · simp [Array.getElem?_modify, same, found]
      · simp [Array.getElem?_modify, same, found]

theorem extends_refer (t : Scopes) (x scope : Nat) (name : Name) :
    Extends t.scopes.size t (t.refer x scope name) := by
  unfold refer
  split <;> exact .of_eq rfl rfl

/-! ## What a scope shows -/

def firstOf (ds : List Declaration) (name : Name) : Option Declaration :=
  ds.find? fun d => d.name == name

/--
A scope has a binding for each name that is declared, made by the first declaration
of the name, and none for other names.
-/
def Shows (t : Scopes) (i : Nat) (ds : List Declaration) : Prop :=
  ∀ name, match firstOf ds name with
    | none => t.binding? i name = none
    | some d => ∃ b, t.binding? i name = some b ∧ t.bindings[b]? = some ⟨name, d.kind, d.node, i⟩

theorem Shows.extend {ds : List Declaration} {i : Nat} (h : t.Shows i ds) (grown : Extends n t t')
    (bound : i < n) : t'.Shows i ds := by
  intro name
  have here := h name
  cases first : firstOf ds name with
  | none =>
    rw [first] at here
    exact (grown.binding? bound name).trans here
  | some d =>
    rw [first] at here
    obtain ⟨b, found, entry⟩ := here
    exact ⟨b, (grown.binding? bound name).trans found, grown.bindings b _ entry⟩

theorem firstOf_append (ds ds' : List Declaration) (name : Name) :
    firstOf (ds ++ ds') name = (firstOf ds name).or (firstOf ds' name) := by
  unfold firstOf
  exact List.find?_append

theorem binding?_modify (t : Scopes) (i : Nat) (name other : Name) (b : Nat)
    (there : i < t.scopes.size) (bindings : Array Binding) (declarations : Std.TreeMap Nat Nat) :
    ({ t with
      bindings
      declarations
      scopes := t.scopes.modify i fun entry =>
        { entry with names := entry.names.insert name b } } : Scopes).binding? i other =
      if name = other then some b else t.binding? i other := by
  have found : t.scopes[i]? = some t.scopes[i] := Array.getElem?_eq_getElem there
  unfold binding?
  simp only [Array.getElem?_modify, found, if_pos, Option.map_some, Option.bind_some,
    Std.TreeMap.getElem?_insert]
  by_cases same : name = other
  · simp [same]
  · simp [same]

theorem Shows.declare {ds : List Declaration} {i : Nat} (h : t.Shows i ds)
    (there : i < t.scopes.size) (d : Declaration) : (t.declare i d).Shows i (ds ++ [d]) := by
  intro name
  have here := h name
  have own := h d.name
  have grown := extends_declare t i d
  rw [firstOf_append]
  cases known : t.binding? i d.name with
  | some b =>
    -- The name has a binding, so it was declared before.
    have same : (t.declare i d).binding? i name = t.binding? i name := by
      unfold Scopes.declare
      rw [known]
      rfl
    cases first : firstOf ds name with
    | some d' =>
      rw [first] at here
      obtain ⟨b', found, entry⟩ := here
      exact ⟨b', same.trans found, grown.bindings b' _ entry⟩
    | none =>
      rw [first] at here
      have other : d.name ≠ name := by
        intro eq
        rw [eq, here] at known
        cases known
      simpa [firstOf, other] using same.trans here
  | none =>
    have after : (t.declare i d).binding? i name =
        if d.name = name then some t.bindings.size else t.binding? i name := by
      unfold Scopes.declare
      rw [known]
      exact binding?_modify t i d.name name _ there ..
    have entry : (t.declare i d).bindings[t.bindings.size]? = some ⟨d.name, d.kind, d.node, i⟩ := by
      unfold Scopes.declare
      rw [known]
      simp
    by_cases same : d.name = name
    · subst same
      have new : firstOf ds d.name = none := by
        cases first : firstOf ds d.name with
        | none => rfl
        | some d' =>
          rw [first] at own
          obtain ⟨b, found, -⟩ := own
          rw [known] at found
          cases found
      rw [new]
      simp only [firstOf, List.find?_cons, BEq.rfl, Option.none_or]
      exact ⟨_, after.trans (if_pos rfl), entry⟩
    · have absent : firstOf [d] name = none := by simp [firstOf, same]
      rw [if_neg same] at after
      rw [absent, Option.or_none]
      cases first : firstOf ds name with
      | none =>
        rw [first] at here
        exact after.trans here
      | some d' =>
        rw [first] at here
        obtain ⟨b, found, entry⟩ := here
        exact ⟨b, after.trans found, grown.bindings b _ entry⟩

theorem Shows.declareAll {ds : List Declaration} {i : Nat} (h : t.Shows i ds)
    (there : i < t.scopes.size) (more : List Declaration) :
    (t.declareAll i more.toArray).Shows i (ds ++ more) ∧
      Extends i t (t.declareAll i more.toArray) := by
  unfold Scopes.declareAll
  rw [← Array.foldl_toList]
  induction more generalizing t ds with
  | nil => exact ⟨by simpa using h, .of_eq rfl rfl⟩
  | cons d rest ih =>
    have first := extends_declare t i d
    obtain ⟨shows, grown⟩ := ih (h.declare there d) (Nat.lt_of_lt_of_le there first.size)
    rw [List.append_assoc] at shows
    exact ⟨shows, first.trans grown⟩

theorem functionScope_eq {i : Nat} {scope : Scope} (found : t.scopes[i]? = some scope)
    (kind : scope.kind ≠ .block) : t.functionScope i = i := by
  obtain ⟨kind', parent, names⟩ := scope
  unfold functionScope
  cases i with
  | zero => rfl
  | succ i =>
    unfold functionScopeWithin
    rw [found]
    cases kind' with
    | block => exact (kind rfl).elim
    | _ => rfl

/-- In a scope that is no block, variables are hoisted to that very scope. -/
theorem Shows.declareStatements {ds : List Declaration} {i : Nat} (h : t.Shows i ds) {scope : Scope}
    (found : t.scopes[i]? = some scope) (kind : scope.kind ≠ .block)
    (body : List (Tree.Part Nat Name)) :
    (t.declareStatements i body).Shows i (ds ++ (Tree.hoistedList body ++ Tree.lexicals body)) ∧
      Extends i t (t.declareStatements i body) := by
  have there : i < t.scopes.size := (Array.getElem?_eq_some_iff.mp found).choose
  unfold Scopes.declareStatements
  rw [functionScope_eq found kind, ← List.append_assoc]
  obtain ⟨first, grown⟩ := h.declareAll there (Tree.hoistedList body)
  obtain ⟨second, grown'⟩ := first.declareAll (Nat.lt_of_lt_of_le there grown.size) (Tree.lexicals body)
  exact ⟨second, grown.trans grown'⟩

structure Opened (t : Scopes) (outer : Nat) (kind : ScopeKind) (ds : List Declaration)
    (t' : Scopes) : Prop where
  grown : t.Extends t.scopes.size t'
  place : ∃ scope, t'.scopes[t.scopes.size]? = some scope ∧ scope.kind = kind ∧
    scope.parent = some outer
  shows : t'.Shows t.scopes.size ds

theorem opened_openScope (t : Scopes) (outer : Nat) (kind : ScopeKind) :
    t.Opened outer kind [] (t.openScope kind (some outer)).2 where
  grown := t.extends_openScope kind (some outer)
  place := ⟨{ kind, parent := some outer }, by simp [openScope], rfl, rfl⟩
  shows name := by simp [firstOf, openScope, binding?]

namespace Opened

variable {outer : Nat} {kind : ScopeKind} {ds : List Declaration} (h : t.Opened outer kind ds t')

include h

theorem declareAll (more : List Declaration) :
    t.Opened outer kind (ds ++ more) (t'.declareAll t.scopes.size more.toArray) := by
  obtain ⟨scope, found, own, parent⟩ := h.place
  obtain ⟨shows, grown⟩ := h.shows.declareAll (Array.getElem?_eq_some_iff.mp found).choose more
  obtain ⟨scope', found', own', parent'⟩ := grown.places _ scope found
  exact ⟨h.grown.trans grown, ⟨scope', found', own'.trans own, parent'.trans parent⟩, shows⟩

theorem declareStatements (hoists : kind ≠ .block) (body : List (Tree.Part Nat Name)) :
    t.Opened outer kind (ds ++ (Tree.hoistedList body ++ Tree.lexicals body))
      (t'.declareStatements t.scopes.size body) := by
  obtain ⟨scope, found, own, parent⟩ := h.place
  obtain ⟨shows, grown⟩ := h.shows.declareStatements found (own ▸ hoists) body
  obtain ⟨scope', found', own', parent'⟩ := grown.places _ scope found
  exact ⟨h.grown.trans grown, ⟨scope', found', own'.trans own, parent'.trans parent⟩, shows⟩

end Opened

/-! ## Look-ups -/

/-- The scopes from one outwards, each the parent of the one before, and older. -/
def Chain (t : Scopes) : List Nat → Prop
  | [] => False
  | [i] => ∃ scope, t.scopes[i]? = some scope ∧ scope.parent = none
  | i :: p :: rest =>
    (∃ scope, t.scopes[i]? = some scope ∧ scope.parent = some p) ∧ p < i ∧ t.Chain (p :: rest)

theorem Chain.extend {chain : List Nat} (h : t.Chain chain) (grown : Extends n t t') :
    t'.Chain chain := by
  induction chain with
  | nil => exact h
  | cons i rest ih =>
    cases rest with
    | nil =>
      obtain ⟨scope, found, last⟩ := h
      obtain ⟨scope', found', -, parent⟩ := grown.places i scope found
      exact ⟨scope', found', parent.trans last⟩
    | cons p rest =>
      obtain ⟨⟨scope, found, next⟩, older, h⟩ := h
      obtain ⟨scope', found', -, parent⟩ := grown.places i scope found
      exact ⟨⟨scope', found', parent.trans next⟩, older, ih h⟩

/-- A look-up finds the first scope outwards that declares the name. -/
theorem Chain.lookupWithin {i : Nat} {rest : List Nat} (h : t.Chain (i :: rest)) {fuel : Nat}
    (enough : i + 1 ≤ fuel) (name : Name) :
    t.lookupWithin fuel i name = (i :: rest).findSome? fun j => t.binding? j name := by
  induction rest generalizing i fuel with
  | nil =>
    obtain ⟨fuel, rfl⟩ : ∃ n, fuel = n + 1 := ⟨fuel - 1, by omega⟩
    obtain ⟨scope, found, last⟩ := h
    cases own : scope.names[name]? <;> simp [Scopes.lookupWithin, found, last, own, Scopes.binding?]
  | cons p rest ih =>
    obtain ⟨fuel, rfl⟩ : ∃ n, fuel = n + 1 := ⟨fuel - 1, by omega⟩
    obtain ⟨⟨scope, found, next⟩, older, h⟩ := h
    have outer : t.lookupWithin fuel p name = _ := ih h (by omega)
    cases own : scope.names[name]? with
    | some b => simp [Scopes.lookupWithin, found, own, Scopes.binding?]
    | none =>
      rw [List.findSome?_cons]
      simp only [Scopes.lookupWithin, found, next, own, Scopes.binding?, Option.bind_some]
      exact outer

theorem bindingOf_refer_self (t : Scopes) (x scope : Nat) (name : Name)
    (fresh : t.bindingOf (some x) = none) :
    (t.refer x scope name).bindingOf (some x) = t.lookup scope name := by
  unfold refer
  cases found : t.lookup scope name with
  | none => exact fresh
  | some b => simp [bindingOf]

end Scopes

/-! ## Nodes that open scopes -/

namespace Tree

variable {T u c : Tree Nat Name}

/-- The nodes that open a scope, unless they are the body of a function. -/
def opens (T : Tree Nat Name) : Bool :=
  match T.kind with
  | .program _ | .block _ | .function .. | .arrow .. => true
  | _ => false

def declared (T : Tree Nat Name) : List Declaration :=
  match T.kind with
  | .program body => hoistedList body ++ lexicals body
  | .block body => lexicals body
  | .function _ params body | .arrow params body =>
    parameters params ++
      match statements? body with
      | some list => hoistedList list ++ lexicals list
      | none => []
  | _ => []

/-- The nodes around what is inside a node, innermost first. -/
def around (T : Tree Nat Name) (outer : List (Tree Nat Name)) : List (Tree Nat Name) :=
  if T.opens then T :: outer else outer

theorem mem_around {outer : List (Tree Nat Name)} {o : Tree Nat Name} (mem : o ∈ T.around outer) :
    o = T ∨ o ∈ outer := by
  unfold around at mem
  split at mem
  · exact List.mem_cons.mp mem
  · exact .inr mem

theorem mem_around_of_mem (T : Tree Nat Name) {outer : List (Tree Nat Name)} {o : Tree Nat Name}
    (mem : o ∈ outer) : o ∈ T.around outer := by
  unfold around
  split
  · exact List.mem_cons_of_mem _ mem
  · exact mem

/-- A walk that is at `u` inside some nodes with scopes, innermost first, comes to `v` inside others. -/
inductive Leads : List (Tree Nat Name) → Tree Nat Name → List (Tree Nat Name) → Tree Nat Name → Prop
  | here (outer : List (Tree Nat Name)) (u : Tree Nat Name) : Leads outer u outer u
  | inside {outer inner : List (Tree Nat Name)} {u c v : Tree Nat Name} :
      c ∈ u.visited → Leads (u.around outer) c inner v → Leads outer u inner v

theorem Leads.subtree {outer inner : List (Tree Nat Name)} {v : Tree Nat Name}
    (h : Leads outer u inner v) : v ∈ u.subtrees := by
  induction h with
  | here => exact self_mem_subtrees _
  | inside mem _ ih => exact subtrees_trans (subtree_of_visited mem) ih

theorem Leads.mem {outer inner : List (Tree Nat Name)} {v o : Tree Nat Name}
    (h : Leads outer u inner v) (mem : o ∈ inner) : o ∈ outer ∨ o ∈ u.subtrees := by
  induction h with
  | here => exact .inl mem
  | @inside outer inner u c v visited _ ih =>
    rcases ih mem with before | below
    · rcases mem_around before with rfl | before
      · exact .inr (self_mem_subtrees _)
      · exact .inl before
    · exact .inr (subtrees_trans (subtree_of_visited visited) below)

/-- A node that opens a scope gets a new one, and it shows what the node declares. -/
theorem opened_enter (opener : T.opens = true) (plain : ∀ body, T.kind ≠ .program body) (scope : Nat)
    (t : Scopes) : (T.enter scope t).1 = t.scopes.size ∧
      ∃ kind, t.Opened scope kind T.declared (T.enter scope t).2 := by
  have first (kind : ScopeKind) (ds : List Declaration) :=
    (t.opened_openScope scope kind).declareAll ds
  unfold opens at opener
  unfold enter declared
  cases own : T.kind with
  | program body => exact (plain body own).elim
  | block body => exact ⟨rfl, .block, first .block (lexicals body)⟩
  | function _ params body | arrow params body =>
    have params := first .function (parameters params)
    dsimp only
    cases statements? body with
    | none =>
      rw [List.append_nil]
      exact ⟨rfl, .function, params⟩
    | some list => exact ⟨rfl, .function, params.declareStatements nofun list⟩
  | _ => simp [own] at opener

theorem enter_eq (other : T.opens = false) (scope : Nat) (t : Scopes) :
    T.enter scope t = (scope, t) := by
  unfold opens at other
  unfold enter
  cases own : T.kind <;> simp_all

/-- What is visited inside a node has no node twice, and not the node itself. -/
theorem nodup_visited (distinct : T.ids.Nodup) :
    (T.visited.flatMap ids).Nodup ∧ T.tag ∉ T.visited.flatMap ids := by
  have apart : T.tag ∉ T.visited.flatMap ids := by
    intro mem
    obtain ⟨c, visited, inside⟩ := List.mem_flatMap.mp mem
    apply tag_not_mem_below distinct
    rcases mem_visited visited with child | ⟨b, child, child'⟩
    · exact List.mem_flatMap.mpr ⟨c, child, inside⟩
    · exact List.mem_flatMap.mpr ⟨b, child, mem_ids_of_child child' inside⟩
  refine ⟨?_, apart⟩
  have below := nodup_children distinct
  unfold visited
  cases own : T.kind with
  | function _ params body | arrow params body =>
    have inside : ∀ b ∈ body, b ∈ T.children := by
      rintro b ⟨⟩
      simp [mem_children_iff, own, Kind.slots, Kind.parts]
    dsimp only
    cases block : statements? body with
    | none =>
      cases body with
      | none => exact List.nodup_nil
      | some b => simpa using nodup_subtree distinct (child_mem_subtrees (inside b rfl))
    | some list =>
      obtain ⟨x, rfl⟩ := statements?_eq_some block
      have once := nodup_children (nodup_subtree distinct (child_mem_subtrees (inside _ rfl)))
      simpa [children, Tree.kind, Kind.slots, Kind.parts] using once
  | _ => exact below

/-! ## What the walk does -/

structure Frames (t : Scopes) (place : Nat → Nat) (scope : Nat) (outer : List (Tree Nat Name)) :
    Prop where
  chain : t.Chain (outer.map fun o => place o.tag)
  top : (outer.map fun o => place o.tag).head? = some scope
  shows : ∀ o ∈ outer, place o.tag < t.scopes.size ∧ t.Shows (place o.tag) o.declared

/--
What is so after some trees were resolved inside the same nodes: every node that opens
a scope has a place for it, and an identifier refers to the first scope outwards that
has its name.
-/
structure Resolved (place place' : Nat → Nat) (outer list : List (Tree Nat Name)) (t t' : Scopes) :
    Prop where
  grown : t.Extends t.scopes.size t'
  places : ∀ x, (∀ u ∈ list, x ∉ u.ids) → place' x = place x
  shows : ∀ u ∈ list, ∀ inner v, Leads outer u inner v → ∀ o ∈ v.around inner,
    place' o.tag < t'.scopes.size ∧ t'.Shows (place' o.tag) o.declared
  sees : ∀ u ∈ list, ∀ inner v name, Leads outer u inner v → v.kind = .ident name →
    t'.bindingOf (some v.tag) = inner.findSome? fun o => t'.binding? (place' o.tag) name
  others : ∀ x, (∀ u ∈ list, ∀ inner v name, Leads outer u inner v → v.kind = .ident name →
    v.tag ≠ x) → t'.bindingOf (some x) = t.bindingOf (some x)

section Walk

variable {t t₁ t' : Scopes} {place place₁ place' : Nat → Nat} {scope : Nat}
  {outer : List (Tree Nat Name)}

theorem findSome?_congr {α β : Type} {f g : α → Option β} {list : List α}
    (same : ∀ a ∈ list, f a = g a) : list.findSome? f = list.findSome? g := by
  induction list with
  | nil => rfl
  | cons a rest ih =>
    rw [List.findSome?_cons, List.findSome?_cons, same a List.mem_cons_self,
      ih fun b mem => same b (List.mem_cons_of_mem a mem)]

theorem Frames.lookup (frames : Frames t place scope outer) (name : Name) :
    t.lookup scope name = outer.findSome? fun o => t.binding? (place o.tag) name := by
  cases outer with
  | nil => exact frames.chain.elim
  | cons o rest =>
    cases frames.top
    have found := frames.chain.lookupWithin (Nat.le_refl _) name
    have mapped : ((o :: rest).map fun o => place o.tag).findSome? (fun j => t.binding? j name) =
        (o :: rest).findSome? fun o => t.binding? (place o.tag) name := List.findSome?_map
    exact found.trans mapped

theorem Frames.extend (frames : Frames t place scope outer) (grown : t.Extends t.scopes.size t')
    (same : ∀ o ∈ outer, place' o.tag = place o.tag) : Frames t' place' scope outer := by
  have map : (outer.map fun o => place' o.tag) = outer.map fun o => place o.tag :=
    List.map_congr_left same
  refine ⟨?_, ?_, fun o mem => ?_⟩
  · rw [map]
    exact frames.chain.extend grown
  · rw [map]
    exact frames.top
  · obtain ⟨bound, shows⟩ := frames.shows o mem
    rw [same o mem]
    exact ⟨Nat.lt_of_lt_of_le bound grown.size, shows.extend grown bound⟩

theorem resolved_nil (t : Scopes) (place : Nat → Nat) (outer : List (Tree Nat Name)) :
    Resolved place place outer [] t t :=
  ⟨.of_eq rfl rfl, fun _ _ => rfl, nofun, nofun, fun _ _ => rfl⟩

/-- Trees that share no nodes are resolved one after the other. -/
theorem Resolved.cons {c : Tree Nat Name} {rest : List (Tree Nat Name)}
    (first : Resolved place place₁ outer [c] t t₁) (second : Resolved place₁ place' outer rest t₁ t')
    (apart : ∀ o ∈ outer, ∀ u ∈ rest, o.tag ∉ u.ids)
    (disjoint : ∀ u ∈ rest, List.Disjoint c.ids u.ids) :
    Resolved place place' outer (c :: rest) t t' := by
  -- What was found out about the first tree stays: the others neither move nor change its scopes.
  have kept {inner : List (Tree Nat Name)} {v : Tree Nat Name} (leads : Leads outer c inner v)
      {o : Tree Nat Name} (mem : o ∈ v.around inner) : place' o.tag = place₁ o.tag := by
    refine second.places o.tag fun u inside => ?_
    rcases mem_around mem with rfl | mem
    · exact disjoint u inside (List.mem_map_of_mem leads.subtree)
    · rcases leads.mem mem with before | below
      · exact apart o before u inside
      · exact disjoint u inside (List.mem_map_of_mem below)
  have stays {inner : List (Tree Nat Name)} {v : Tree Nat Name} (leads : Leads outer c inner v) :
      ∀ o ∈ v.around inner, place₁ o.tag < t₁.scopes.size ∧ t₁.Shows (place₁ o.tag) o.declared :=
    first.shows c List.mem_cons_self inner v leads
  refine ⟨first.grown.trans (second.grown.mono first.grown.size), ?_, ?_, ?_, ?_⟩
  · intro x outside
    rw [second.places x fun u mem => outside u (List.mem_cons_of_mem c mem),
      first.places x fun u mem => outside u (by simpa using .inl (List.mem_singleton.mp mem))]
  · intro u mem inner v leads o inside
    rcases List.mem_cons.mp mem with rfl | mem
    · obtain ⟨bound, shows⟩ := stays leads o inside
      rw [kept leads inside]
      exact ⟨Nat.lt_of_lt_of_le bound second.grown.size, shows.extend second.grown bound⟩
    · exact second.shows u mem inner v leads o inside
  · intro u mem inner v name leads ident
    rcases List.mem_cons.mp mem with rfl | mem
    · rw [second.others v.tag, first.sees u List.mem_cons_self inner v name leads ident]
      · refine findSome?_congr fun o inside => ?_
        have around := mem_around_of_mem v inside
        rw [kept leads around, second.grown.binding? (stays leads o around).1]
      · intro w other inner' v' name' leads' ident' same
        exact disjoint w other (List.mem_map_of_mem leads.subtree)
          (same ▸ List.mem_map_of_mem leads'.subtree)
    · exact second.sees u mem inner v name leads ident
  · intro x outside
    rw [second.others x fun u mem => outside u (List.mem_cons_of_mem c mem),
      first.others x fun u mem => outside u (by simpa using .inl (List.mem_singleton.mp mem))]

theorem resolved_foldl {list : List (Tree Nat Name)} (frames : Frames t place scope outer)
    (distinct : (list.flatMap ids).Nodup) (apart : ∀ o ∈ outer, ∀ u ∈ list, o.tag ∉ u.ids)
    (fresh : ∀ u ∈ list, ∀ x ∈ u.ids, t.bindingOf (some x) = none)
    (each : ∀ u ∈ list, ∀ (t : Scopes) (place : Nat → Nat), Frames t place scope outer →
      (∀ x ∈ u.ids, t.bindingOf (some x) = none) →
        ∃ place', Resolved place place' outer [u] t (u.resolveIn scope t)) :
    ∃ place', Resolved place place' outer list t
      (list.foldl (fun t c => c.resolveIn scope t) t) := by
  induction list generalizing t place with
  | nil => exact ⟨place, resolved_nil t place outer⟩
  | cons c rest ih =>
    rw [List.flatMap_cons, List.nodup_append'] at distinct
    obtain ⟨own, others, disjoint⟩ := distinct
    have apart' : ∀ u ∈ rest, List.Disjoint c.ids u.ids := fun u mem x left right =>
      disjoint left (List.mem_flatMap.mpr ⟨u, mem, right⟩)
    obtain ⟨place₁, first⟩ := each c List.mem_cons_self t place frames (fresh c List.mem_cons_self)
    have frames₁ : Frames (c.resolveIn scope t) place₁ scope outer :=
      frames.extend first.grown fun o mem => first.places o.tag fun u inside =>
        apart o mem u (by simpa using .inl (List.mem_singleton.mp inside))
    obtain ⟨place', second⟩ := ih frames₁ others
      (fun o mem u inside => apart o mem u (List.mem_cons_of_mem c inside))
      (fun u mem x inside => by
        rw [bindingOf_resolveIn fun here => apart' u mem here inside]
        exact fresh u (List.mem_cons_of_mem c mem) x inside)
      (fun u mem => each u (List.mem_cons_of_mem c mem))
    exact ⟨place', first.cons second
      (fun o mem u inside => apart o mem u (List.mem_cons_of_mem c inside)) apart'⟩

/-- Entering a node leads to the scopes around what is inside it. -/
theorem Frames.enter (frames : Frames t place scope outer) (apart : ∀ o ∈ outer, o.tag ∉ u.ids)
    (plain : ∀ body, u.kind ≠ .program body) :
    ∃ place₁, Frames (u.enter scope t).2 place₁ (u.enter scope t).1 (u.around outer) ∧
      t.Extends t.scopes.size (u.enter scope t).2 ∧ ∀ x, x ≠ u.tag → place₁ x = place x := by
  unfold around
  by_cases opener : u.opens = true
  · obtain ⟨new, kind, opened⟩ := opened_enter opener plain scope t
    let place₁ : Nat → Nat := fun x => if x = u.tag then t.scopes.size else place x
    have other : ∀ x, x ≠ u.tag → place₁ x = place x := fun x different => if_neg different
    have own : place₁ u.tag = t.scopes.size := if_pos rfl
    have same : ∀ o ∈ outer, place₁ o.tag = place o.tag := by
      intro o mem
      apply other
      intro eq
      exact apart o mem (eq ▸ u.tag_mem_ids)
    have around := frames.extend opened.grown same
    obtain ⟨entry, found, -, parent⟩ := opened.place
    refine ⟨place₁, ⟨?_, ?_, ?_⟩, opened.grown, other⟩
    · rw [if_pos opener]
      have chain := around.chain
      have top := around.top
      cases outer with
      | nil => exact frames.chain.elim
      | cons o rest =>
        have first : place₁ o.tag = scope := Option.some.inj top
        have older := (frames.shows o List.mem_cons_self).1
        rw [← same o List.mem_cons_self] at older
        rw [List.map_cons, own]
        exact ⟨⟨entry, found, parent.trans (congrArg some first.symm)⟩, older, chain⟩
    · rw [if_pos opener, List.map_cons, List.head?_cons, own, new]
    · rw [if_pos opener]
      intro o mem
      rcases List.mem_cons.mp mem with rfl | mem
      · rw [own]
        exact ⟨(Array.getElem?_eq_some_iff.mp found).choose, opened.shows⟩
      · exact around.shows o mem
  · rw [if_neg opener, enter_eq (by simpa using opener)]
    exact ⟨place, frames, .of_eq rfl rfl, fun _ _ => rfl⟩

theorem Leads.of_ident {inner : List (Tree Nat Name)} {v : Tree Nat Name} {name : Name}
    (leads : Leads outer u inner v) (ident : u.kind = .ident name) : inner = outer ∧ v = u := by
  cases leads with
  | here => exact ⟨rfl, rfl⟩
  | inside mem _ => simp [visited, children, ident, Kind.slots, Kind.parts] at mem

/-- A tree without a program in it is resolved inside the nodes around it. -/
theorem resolved (distinct : u.ids.Nodup) (plain : ∀ v ∈ u.subtrees, ∀ body, v.kind ≠ .program body)
    (frames : Frames t place scope outer) (apart : ∀ o ∈ outer, o.tag ∉ u.ids)
    (fresh : ∀ x ∈ u.ids, t.bindingOf (some x) = none) :
    ∃ place', Resolved place place' outer [u] t (u.resolveIn scope t) := by
  induction u using induction_visited generalizing t place scope outer with
  | step u ih =>
    by_cases ident : ∃ name, u.kind = .ident name
    · obtain ⟨name, ident⟩ := ident
      have grown := t.extends_refer u.tag scope name
      refine ⟨place, ?_⟩
      rw [resolveIn_ident ident]
      refine ⟨grown, fun _ _ => rfl, ?_, ?_, ?_⟩
      · intro w mem inner v leads o inside
        cases List.mem_singleton.mp mem
        obtain ⟨rfl, rfl⟩ := leads.of_ident ident
        have around : v.around inner = inner := by simp [around, opens, ident]
        obtain ⟨bound, shows⟩ := frames.shows o (around ▸ inside)
        exact ⟨Nat.lt_of_lt_of_le bound grown.size, shows.extend grown bound⟩
      · intro w mem inner v name' leads ident'
        cases List.mem_singleton.mp mem
        obtain ⟨rfl, rfl⟩ := leads.of_ident ident
        cases ident.symm.trans ident'
        rw [t.bindingOf_refer_self v.tag scope name (fresh v.tag v.tag_mem_ids), frames.lookup]
        exact findSome?_congr fun o inside => (grown.binding? (frames.shows o inside).1 name).symm
      · intro x outside
        apply t.bindingOf_refer
        intro same
        cases same
        exact outside u List.mem_cons_self outer u name (.here outer u) ident rfl
    · have below := nodup_visited distinct
      obtain ⟨place₁, frames₁, grown, other⟩ := frames.enter apart (plain u u.self_mem_subtrees)
      have inside {c : Tree Nat Name} (mem : c ∈ u.visited) {x : Nat} (here : x ∈ c.ids) :
          x ∈ u.ids := mem_ids_of_subtree (subtree_of_visited mem) here
      have apart' : ∀ o ∈ u.around outer, ∀ c ∈ u.visited, o.tag ∉ c.ids := by
        intro o mem c visited here
        rcases mem_around mem with rfl | mem
        · exact below.2 (List.mem_flatMap.mpr ⟨c, visited, here⟩)
        · exact apart o mem (inside visited here)
      have each : ∀ c ∈ u.visited, ∀ (t' : Scopes) (place' : Nat → Nat),
          Frames t' place' (u.enter scope t).1 (u.around outer) →
            (∀ x ∈ c.ids, t'.bindingOf (some x) = none) →
              ∃ place'', Resolved place' place'' (u.around outer) [c] t'
                (c.resolveIn (u.enter scope t).1 t') := by
        intro c mem t' place' frames' fresh'
        exact ih c mem (nodup_subtree distinct (subtree_of_visited mem))
          (fun v deep => plain v (subtrees_trans (subtree_of_visited mem) deep)) frames'
          (fun o around => apart' o around c mem) fresh'
      obtain ⟨place', rest⟩ := resolved_foldl frames₁ below.1 apart'
        (fun c visited x here => (bindingOf_enter ..).trans (fresh x (inside visited here))) each
      rw [resolveIn_eq (by simpa using ident)]
      have same : ∀ x, x ∉ u.ids → place' x = place x := by
        intro x outside
        rw [rest.places x fun c mem here => outside (inside mem here)]
        apply other
        intro eq
        exact outside (eq ▸ u.tag_mem_ids)
      have all := grown.trans (rest.grown.mono grown.size)
      have shown := frames₁.extend rest.grown fun o mem => rest.places o.tag fun c visited =>
        apart' o mem c visited
      refine ⟨place', all, fun x outside => same x (outside u List.mem_cons_self), ?_, ?_, ?_⟩
      · intro w mem inner v leads o around
        cases List.mem_singleton.mp mem
        cases leads with
        | here => exact shown.shows o around
        | inside mem leads => exact rest.shows _ mem inner v leads o around
      · intro w mem inner v name leads ident'
        cases List.mem_singleton.mp mem
        cases leads with
        | here => exact (ident ⟨name, ident'⟩).elim
        | inside mem leads => exact rest.sees _ mem inner v name leads ident'
      · intro x outside
        refine (rest.others x fun c mem inner v name leads ident' => ?_).trans (bindingOf_enter ..)
        exact outside u List.mem_cons_self inner v name (.inside mem leads) ident'

end Walk

def isProgram (T : Tree Nat Name) : Bool :=
  match T.kind with
  | .program _ => true
  | _ => false

def ProgramsAtTop (T : Tree Nat Name) : Prop :=
  ∀ c ∈ T.children, ∀ v ∈ c.subtrees, v.isProgram = false

instance : Decidable T.ProgramsAtTop :=
  inferInstanceAs (Decidable (∀ c ∈ T.children, ∀ v ∈ c.subtrees, v.isProgram = false))

theorem ProgramsAtTop.plain (top : T.ProgramsAtTop) (child : c ∈ T.children) {v : Tree Nat Name}
    (below : v ∈ c.subtrees) (body : List (Part Nat Name)) : v.kind ≠ .program body := by
  intro program
  have other := top c child v below
  simp [isProgram, program] at other

/-- What is so after a program was resolved. -/
theorem resolved_program {body : List (Part Nat Name)} (program : T.kind = .program body)
    (distinct : T.ids.Nodup) (top : T.ProgramsAtTop) : ∃ place : Nat → Nat,
      (∀ inner v, Leads [] T inner v → ∀ o ∈ v.around inner,
        T.scopesOf.Shows (place o.tag) o.declared) ∧
      (∀ inner v name, Leads [] T inner v → v.kind = .ident name →
        T.scopesOf.bindingOf (some v.tag) =
          inner.findSome? fun o => T.scopesOf.binding? (place o.tag) name) ∧
      ∀ x, (∀ inner v name, Leads [] T inner v → v.kind = .ident name → v.tag ≠ x) →
        T.scopesOf.bindingOf (some x) = none := by
  let t := (({} : Scopes).openScope .program none).2
  have found : t.scopes[0]? = some { kind := .program, parent := none } := rfl
  have empty : t.Shows 0 [] := by
    intro name
    simp [t, Scopes.firstOf, Scopes.openScope, Scopes.binding?]
  obtain ⟨shows, grown⟩ := empty.declareStatements found (by simp) body
  obtain ⟨scope, found', -, last⟩ := grown.places 0 _ found
  have entered : T.enter 0 t = (0, t.declareStatements 0 body) := by
    unfold enter
    rw [program]
  have around : T.around [] = [T] := by simp [Tree.around, opens, program]
  have declares : T.declared = hoistedList body ++ lexicals body := by
    unfold declared
    rw [program]
  have frames : Frames (t.declareStatements 0 body) (fun _ => 0) 0 [T] := by
    refine ⟨⟨scope, found', last⟩, rfl, fun o mem => ?_⟩
    cases List.mem_singleton.mp mem
    rw [declares]
    exact ⟨(Array.getElem?_eq_some_iff.mp found').choose, shows⟩
  have below := nodup_visited distinct
  have fresh (x : Nat) : (t.declareStatements 0 body).bindingOf (some x) = none := by
    have same := bindingOf_enter T 0 t (some x)
    rw [entered] at same
    exact same
  have children : T.visited = T.children := by simp [visited, program]
  have apart : ∀ o ∈ [T], ∀ c ∈ T.visited, o.tag ∉ c.ids := by
    intro o mem c visited here
    cases List.mem_singleton.mp mem
    exact below.2 (List.mem_flatMap.mpr ⟨c, visited, here⟩)
  obtain ⟨place, rest⟩ := resolved_foldl frames below.1 apart (fun c _ x _ => fresh x)
    (fun c mem t' place' frames' fresh' => resolved (nodup_subtree distinct (subtree_of_visited mem))
      (fun v deep => top.plain (children ▸ mem) deep) frames' (fun o around => apart o around c mem) fresh')
  have frames' := frames.extend rest.grown fun o mem => rest.places o.tag (apart o mem)
  have shown : T.scopesOf = T.visited.foldl (fun t c => c.resolveIn 0 t) (t.declareStatements 0 body) := by
    unfold scopesOf
    rw [resolveIn_eq (by simp [program])]
    show T.visited.foldl (fun t' c => c.resolveIn (T.enter 0 t).1 t') (T.enter 0 t).2 = _
    rw [entered]
  rw [← shown] at rest frames'
  rw [← around] at rest frames'
  refine ⟨place, ?_, ?_, ?_⟩
  · intro inner v leads o mem
    cases leads with
    | here => exact (frames'.shows o mem).2
    | inside visited leads => exact (rest.shows _ visited inner v leads o mem).2
  · intro inner v name leads ident
    cases leads with
    | here => cases program.symm.trans ident
    | inside visited leads => exact rest.sees _ visited inner v name leads ident
  · intro x outside
    exact (rest.others x fun c mem inner v name leads =>
      outside inner v name (.inside mem leads)).trans (fresh x)

end Tree

end BigLower
