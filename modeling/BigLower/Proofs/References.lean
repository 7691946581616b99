import BigLower.Proofs.Rescoping

/-! # References after lowering

The scopes of a unit are made before it is lowered, and kept up for the copies that are
made on the way. They are still right afterwards: resolving the lowered program anew ties
every identifier to a binding of the same name and kind, declared by the same node. Only
the library's own identifiers are new, and they refer to the import.
-/

namespace BigLower

/-! ## What a binding stands for -/

namespace Scopes

variable {t : Scopes} {frames : List (List Declaration)} {name : Name}

/-- A binding, or none, is one of those listed and was made by a declaration, or by none. -/
def Denotes (bindings : Array Binding) : Option Nat → Option Declaration → Prop
  | none, none => True
  | some b, some d => ∃ entry, bindings[b]? = some entry ∧ entry.name = d.name ∧
      entry.kind = d.kind ∧ entry.declaredBy = d.node
  | _, _ => False

def RefersTo (t : Scopes) (x : Nat) (d : Option Declaration) : Prop :=
  Denotes t.bindings (t.bindingOf (some x)) d

/-- The declaration of a name that is seen from inside some others, innermost first. -/
def visible (frames : List (List Declaration)) (name : Name) : Option Declaration :=
  frames.findSome? fun ds => firstOf ds name

theorem visible_cons (ds : List Declaration) :
    visible (ds :: frames) name = (firstOf ds name).or (visible frames name) := by
  unfold visible
  rw [List.findSome?_cons]
  cases firstOf ds name <;> rfl

theorem visible_append (frames' : List (List Declaration)) :
    visible (frames ++ frames') name = (visible frames name).or (visible frames' name) := by
  induction frames with
  | nil => rfl
  | cons ds rest ih => rw [List.cons_append, visible_cons, visible_cons, ih, Option.or_assoc]

theorem visible_eq_none (all : ∀ ds ∈ frames, firstOf ds name = none) : visible frames name = none :=
  List.findSome?_eq_none_iff.mpr all

/-- Looked up in scopes that show some declarations, a name is found as the visible one. -/
theorem denotes_findSome? {list : List (Tree Nat Name)} {place : Nat → Nat}
    (shows : ∀ o ∈ list, t.Shows (place o.tag) o.declared) (name : Name) :
    Denotes t.bindings (list.findSome? fun o => t.binding? (place o.tag) name)
      (visible (list.map Tree.declared) name) := by
  induction list with
  | nil => trivial
  | cons o rest ih =>
    have here := shows o List.mem_cons_self name
    rw [List.map_cons, visible_cons, List.findSome?_cons]
    cases first : firstOf o.declared name with
    | none =>
      rw [first] at here
      rw [here, Option.none_or]
      exact ih fun o' mem => shows o' (List.mem_cons_of_mem o mem)
    | some d =>
      rw [first] at here
      obtain ⟨b, found, entry⟩ := here
      have own : d.name = name := by simpa using List.find?_some first
      rw [found]
      exact ⟨_, entry, own.symm, rfl, rfl⟩

end Scopes

namespace Tree

variable {T u v o : Tree Nat Name} {inner outer : List (Tree Nat Name)} {name : Name}

/-- In a resolved program an identifier refers to the declaration that is visible from it. -/
theorem refersTo_visible {body : List (Part Nat Name)} (program : T.kind = .program body)
    (distinct : T.ids.Nodup) (top : T.ProgramsAtTop) (leads : Leads [] T inner v)
    (ident : v.kind = .ident name) :
    T.scopesOf.RefersTo v.tag (Scopes.visible (inner.map declared) name) := by
  obtain ⟨place, shows, sees, -⟩ := resolved_program program distinct top
  unfold Scopes.RefersTo
  rw [sees inner v name leads ident]
  exact Scopes.denotes_findSome? (fun o mem => shows inner v leads o (mem_around_of_mem v mem)) name

theorem refersTo_none {body : List (Part Nat Name)} (program : T.kind = .program body)
    (distinct : T.ids.Nodup) (top : T.ProgramsAtTop) (below : v ∈ T.subtrees)
    (inside : T.InParams v) : T.scopesOf.RefersTo v.tag none := by
  obtain ⟨_, lexical⟩ := lexicallyScoped program distinct top
  unfold Scopes.RefersTo
  rw [lexical.unresolved v below inside]
  trivial

/-- A walk can be started inside other nodes. -/
theorem Leads.reroot (leads : Leads outer u inner v) :
    ∃ path, inner = path ++ outer ∧ (∀ o ∈ path, o ∈ u.subtrees) ∧
      ∀ outer', Leads outer' u (path ++ outer') v := by
  induction leads with
  | here outer u => exact ⟨[], rfl, nofun, fun outer' => .here outer' u⟩
  | @inside outer inner u c v visited leads ih =>
    obtain ⟨path, rfl, below, again⟩ := ih
    have around (outer' : List (Tree Nat Name)) : u.around outer' = u.around [] ++ outer' := by
      unfold Tree.around
      split <;> rfl
    refine ⟨path ++ u.around [], by rw [around outer, List.append_assoc], fun o mem => ?_,
      fun outer' => .inside visited ?_⟩
    · rcases List.mem_append.mp mem with mem | mem
      · exact subtrees_trans (subtree_of_visited visited) (below o mem)
      · rcases mem_around mem with rfl | mem
        · exact o.self_mem_subtrees
        · cases mem
    · rw [List.append_assoc, ← around outer']
      exact again _

/-! ## Names that nothing declares -/

def binds? (T : Tree Nat Name) : Option Name :=
  match T.kind with
  | .declarator name _ | .function name _ _ | .param name | .importDefault name _ => some name
  | _ => none

def Undeclared (T : Tree Nat Name) (name : Name) : Prop :=
  ∀ u ∈ T.subtrees, u.binds? ≠ some name

instance : Decidable (T.Undeclared name) :=
  inferInstanceAs (Decidable (∀ u ∈ T.subtrees, u.binds? ≠ some name))

variable {d : Declaration}

theorem binds_of_declarator {kind : BindingKind} {list : List (Part Nat Name)}
    (mem : d ∈ declarators kind list) : ∃ c, some c ∈ list ∧ c.binds? = some d.name := by
  obtain ⟨part, inside, mem⟩ := List.mem_flatMap.mp mem
  unfold declaratorOf at mem
  split at mem
  · cases List.mem_singleton.mp mem
    exact ⟨_, inside, rfl⟩
  · cases mem

theorem binds_of_parameter {list : List (Part Nat Name)} (mem : d ∈ parameters list) :
    ∃ c, some c ∈ list ∧ c.binds? = some d.name := by
  obtain ⟨part, inside, mem⟩ := List.mem_flatMap.mp mem
  unfold parameterOf at mem
  split at mem
  · cases List.mem_singleton.mp mem
    exact ⟨_, inside, rfl⟩
  · cases mem

theorem binds_of_lexical {list : List (Part Nat Name)} (mem : d ∈ lexicals list) :
    ∃ c, some c ∈ list ∧ ∃ u ∈ c.subtrees, u.binds? = some d.name := by
  obtain ⟨part, inside, mem⟩ := List.mem_flatMap.mp mem
  unfold lexicalOf at mem
  split at mem
  · split at mem
    · obtain ⟨c, entry, binds⟩ := binds_of_declarator mem
      exact ⟨_, inside, c, child_mem_subtrees (child_of_list (by simp [Tree.kind, Kind.parts]) entry),
        binds⟩
    · cases mem
  · cases List.mem_singleton.mp mem
    exact ⟨_, inside, _, self_mem_subtrees _, rfl⟩
  · cases List.mem_singleton.mp mem
    exact ⟨_, inside, _, self_mem_subtrees _, rfl⟩
  · cases mem

theorem binds_of_hoisted (mem : d ∈ T.hoisted) : ∃ u ∈ T.subtrees, u.binds? = some d.name := by
  induction T using Tree.induction with
  | step T ih =>
    have optional {part : Part Nat Name} (inside : ∀ c ∈ part, c ∈ T.children)
        (mem : d ∈ hoistedOf part) : ∃ u ∈ T.subtrees, u.binds? = some d.name := by
      cases part with
      | none => cases mem
      | some c =>
        obtain ⟨u, below, binds⟩ := ih c (inside c rfl) mem
        exact ⟨u, mem_subtrees_of_child (inside c rfl) below, binds⟩
    obtain ⟨x, k⟩ := T
    cases k with
    | varDecl keyword list =>
      cases keyword with
      | var =>
        obtain ⟨c, entry, binds⟩ := binds_of_declarator mem
        exact ⟨c, child_mem_subtrees (child_of_list (by simp [Tree.kind, Kind.parts]) entry), binds⟩
      | let_ | const => cases mem
    | block list =>
      replace mem : d ∈ hoistedList list := mem
      rw [hoistedList_eq] at mem
      obtain ⟨part, inside, mem⟩ := List.mem_flatMap.mp mem
      refine optional (fun c same => ?_) mem
      cases same
      exact child_of_list (by simp [Tree.kind, Kind.parts]) inside
    | cond test yes no =>
      rcases List.mem_append.mp mem with mem | mem
      · refine optional (fun c same => ?_) mem
        cases same
        simp [mem_children_iff, Tree.kind, Kind.slots, Kind.parts]
      · refine optional (fun c same => ?_) mem
        cases same
        simp [mem_children_iff, Tree.kind, Kind.slots, Kind.parts]
    | _ => cases mem

theorem binds_of_statements {list : List (Part Nat Name)}
    (mem : d ∈ hoistedList list ++ lexicals list) :
    ∃ c, some c ∈ list ∧ ∃ u ∈ c.subtrees, u.binds? = some d.name := by
  rcases List.mem_append.mp mem with mem | mem
  · rw [hoistedList_eq] at mem
    obtain ⟨part, inside, mem⟩ := List.mem_flatMap.mp mem
    cases part with
    | none => cases mem
    | some c => exact ⟨c, inside, binds_of_hoisted mem⟩
  · exact binds_of_lexical mem

/-- What a node declares in its scope is declared by nodes below it. -/
theorem binds_of_declared (mem : d ∈ o.declared) : ∃ u ∈ o.subtrees, u.binds? = some d.name := by
  obtain ⟨x, k⟩ := o
  have below {list : List (Part Nat Name)} (part : .inr list ∈ k.parts)
      (found : ∃ c, some c ∈ list ∧ ∃ u ∈ c.subtrees, u.binds? = some d.name) :
      ∃ u ∈ (node x k).subtrees, u.binds? = some d.name := by
    obtain ⟨c, inside, u, deep, binds⟩ := found
    exact ⟨u, mem_subtrees_of_child (child_of_list part inside) deep, binds⟩
  cases k with
  | program list => exact below (by simp [Kind.parts]) (binds_of_statements mem)
  | block list => exact below (by simp [Kind.parts]) (binds_of_lexical mem)
  | function _ params body | arrow params body =>
    rcases List.mem_append.mp mem with param | local_
    · obtain ⟨c, inside, binds⟩ := binds_of_parameter param
      exact @below params (by simp [Kind.parts]) ⟨c, inside, c, c.self_mem_subtrees, binds⟩
    · cases block : statements? body with
      | none =>
        rw [block] at local_
        cases local_
      | some list =>
        rw [block] at local_
        obtain ⟨y, rfl⟩ := statements?_eq_some block
        obtain ⟨c, inside, u, deep, binds⟩ := binds_of_statements local_
        refine ⟨u, mem_subtrees_of_child (child_of_body rfl) (mem_subtrees_of_child ?_ deep), binds⟩
        exact child_of_list (by simp [Tree.kind, Kind.parts]) inside
  | _ => cases mem

theorem Undeclared.firstOf (h : T.Undeclared name) (below : o ∈ T.subtrees) :
    Scopes.firstOf o.declared name = none := by
  refine List.find?_eq_none.mpr fun d mem own => ?_
  obtain ⟨u, inside, binds⟩ := binds_of_declared mem
  apply h u (subtrees_trans below inside)
  rw [binds, eq_of_beq own]

/-! ## The import -/

section Import

variable {body : List (Part Nat Name)} (program : T.kind = .program body) {library source : Name}
  {x : Nat}

include program

theorem kind_withImport : (T.withImport library source x).kind =
    .program (some (.node x (.importDefault library source)) :: body) := by
  rw [withImport_eq program]
  rfl

theorem declared_of_program : T.declared = hoistedList body ++ lexicals body := by
  unfold declared
  rw [program]

theorem declared_withImport : (T.withImport library source x).declared =
    hoistedList body ++ (⟨library, .importDefault, x⟩ :: lexicals body) := by
  rw [withImport_eq program]
  rfl

/-- The import hides nothing else. -/
theorem firstOf_withImport (other : name ≠ library) :
    Scopes.firstOf (T.withImport library source x).declared name =
      Scopes.firstOf T.declared name := by
  have different : (library == name) = false := beq_false_of_ne other.symm
  rw [declared_withImport program, declared_of_program program, Scopes.firstOf_append,
    Scopes.firstOf_append]
  simp [Scopes.firstOf, different]

theorem firstOf_withImport_self (undeclared : T.Undeclared library) :
    Scopes.firstOf (T.withImport library source x).declared library =
      some ⟨library, .importDefault, x⟩ := by
  have absent := undeclared.firstOf T.self_mem_subtrees
  rw [declared_of_program program, Scopes.firstOf_append] at absent
  rw [declared_withImport program, Scopes.firstOf_append, (Option.or_eq_none_iff.mp absent).1]
  simp [Scopes.firstOf]

theorem visible_withImport (frames : List (List Declaration)) (other : name ≠ library) :
    Scopes.visible (frames ++ [(T.withImport library source x).declared]) name =
      Scopes.visible (frames ++ [T.declared]) name := by
  rw [Scopes.visible_append, Scopes.visible_append, Scopes.visible_cons, Scopes.visible_cons,
    firstOf_withImport program other]

/-- From everywhere in the program the import is what declares the library. -/
theorem visible_withImport_self (undeclared : T.Undeclared library) {path : List (Tree Nat Name)}
    (inside : ∀ o ∈ path, o ∈ T.subtrees) :
    Scopes.visible (path.map declared ++ [(T.withImport library source x).declared]) library =
      some ⟨library, .importDefault, x⟩ := by
  have hidden : Scopes.visible (path.map declared) library = none := by
    refine Scopes.visible_eq_none fun ds listed => ?_
    obtain ⟨o, mem, rfl⟩ := List.mem_map.mp listed
    exact undeclared.firstOf (inside o mem)
  rw [Scopes.visible_append, hidden, Option.none_or, Scopes.visible_cons,
    firstOf_withImport_self program undeclared, Option.some_or]

theorem Leads.of_withImport (leads : Leads [] (T.withImport library source x) inner v)
    (below : inner ≠ []) :
    ∃ path, inner = path ++ [T.withImport library source x] ∧ (∀ o ∈ path, o ∈ T.subtrees) ∧
      ((∃ name, v.kind = .ident name) → Leads [] T (path ++ [T]) v) := by
  cases leads with
  | here => exact (below rfl).elim
  | @inside _ _ _ c _ visited leads =>
    have opener : (T.withImport library source x).around [] = [T.withImport library source x] := by
      rw [withImport_eq program]
      rfl
    have opener' : T.around [] = [T] := by simp [Tree.around, opens, program]
    have children : T.visited = T.children := by simp [Tree.visited, program]
    have visited' : (T.withImport library source x).visited =
        .node x (.importDefault library source) :: T.children := by
      rw [← children_withImport program, withImport_eq program]
      rfl
    rw [opener] at leads
    rw [visited'] at visited
    rcases List.mem_cons.mp visited with rfl | child
    · cases leads with
      | here =>
        refine ⟨[], rfl, by simp, fun ident => ?_⟩
        obtain ⟨name, ident⟩ := ident
        cases ident
      | inside visited _ => cases visited
    · obtain ⟨path, rfl, inside, again⟩ := leads.reroot
      refine ⟨path, rfl, fun o mem => mem_subtrees_of_child child (inside o mem), fun _ => ?_⟩
      exact .inside (children ▸ child) (opener'.symm ▸ again [T])

theorem InParams.of_withImport (inside : (T.withImport library source x).InParams v) :
    T.InParams v := by
  rcases inParams_iff.mp inside with ⟨p, param, -⟩ | ⟨c, child, inside⟩
  · rw [withImport_eq program] at param
    cases param
  · rw [children_withImport program] at child
    rcases List.mem_cons.mp child with rfl | child
    · rcases inParams_iff.mp inside with ⟨p, param, -⟩ | ⟨c, child, -⟩
      · cases param
      · cases child
    · exact inside.of_child child

theorem ProgramsAtTop.withImport (top : T.ProgramsAtTop) :
    (T.withImport library source x).ProgramsAtTop := by
  intro c child u below
  rw [children_withImport program] at child
  rcases List.mem_cons.mp child with rfl | child
  · cases List.mem_singleton.mp below
    rfl
  · exact top c child u below

theorem FlatTargets.withImport (targets : T.FlatTargets) :
    (T.withImport library source x).FlatTargets := by
  intro u below D target
  rcases (mem_subtrees_withImport program ..).mp below with rfl | rfl | ⟨c, child, below⟩
  · rw [withImport_eq program] at target
    cases target
  · cases target
  · exact targets u (mem_subtrees_of_child child below) D target

end Import

/-- A program is lowered to a program that declares the same. -/
theorem Lowers.program {L : LibraryNames} {w : Spelling} {start : Nat} {R : Nat → Bool}
    {B : Nat → Option Nat} {T' : Tree Nat Name} (h : Lowers L w start R B T T')
    {body : List (Part Nat Name)} (program : T.kind = .program body) (top : T.ProgramsAtTop) :
    (∃ body', T'.kind = .program body') ∧ T'.declared = T.declared ∧ T'.ProgramsAtTop := by
  rcases h.kept_or with ⟨f, rfl, below⟩ | ⟨active, -⟩
  · refine ⟨⟨_, by rw [kind_mapChildren, program]; rfl⟩, declared_mapChildren below, ?_⟩
    let Q (k : Kind Name Bool (List Bool)) : Prop := ∀ body, k ≠ .program body
    have outlines {v : Tree Nat Name} : v.isProgram = false ↔ Q v.outline := by
      unfold isProgram outline
      cases v.kind <;> simp [Q, Kind.map]
    have allows : AllowsCalls L.library Q := by
      constructor <;> intros <;> intro body same <;> cases same
    intro c' child u inside
    rw [children_mapChildren] at child
    obtain ⟨c, mem, rfl⟩ := List.mem_map.mp child
    have before : c.Everywhere Q := fun v deep => outlines.mp (top c mem v deep)
    exact outlines.mpr ((below c mem).everywhere allows before u inside)
  · rw [program] at active
    cases active

section

variable {L : LibraryNames} {w : Spelling} {start x : Nat} {R : Nat → Bool} {B : Nat → Option Nat}
  {T' v' : Tree Nat Name} (h : Lowers L w start R B (T.withImport L.library L.source x) T')
  {body : List (Part Nat Name)} (program : T.kind = .program body) (top : T.ProgramsAtTop)
  (targets : T.FlatTargets)

include h program top targets

/-- A walk to an identifier of the lowered program is one over the program and the import. -/
theorem Lowers.leads_program (leads : Leads [] T' inner v') (ident : v'.kind = .ident name) :
    ∃ path v,
      inner.map declared = path.map declared ++ [(T.withImport L.library L.source x).declared] ∧
      (∀ o ∈ path, o ∈ T.subtrees) ∧ Occurs L.library B v v' ∧
      ((∃ name, v.kind = .ident name) → Leads [] T (path ++ [T]) v) := by
  obtain ⟨⟨body', program'⟩, -⟩ := h.program (kind_withImport program) (top.withImport program)
  have start : ([] : List (Tree Nat Name)).map declared = ([] : List (Tree Nat Name)).map declared := rfl
  obtain ⟨inner₀, v, leads₀, same, occurs⟩ := h.leads (targets.withImport program) leads start
  have nonempty : inner₀ ≠ [] := by
    intro empty
    rw [empty, List.map_nil, List.map_eq_nil_iff] at same
    cases leads with
    | here => cases program'.symm.trans ident
    | inside visited leads =>
      obtain ⟨path, whole, -⟩ := leads.reroot
      rw [same] at whole
      simp [Tree.around, opens, program'] at whole
  obtain ⟨path, rfl, below, again⟩ := leads₀.of_withImport program nonempty
  exact ⟨path, v, by rw [same, List.map_append]; rfl, below, occurs, again⟩

/-- An identifier of the lowered program refers to what the one refers to that it comes from. -/
theorem Lowers.refersTo (distinct : T.ids.Nodup) (distinct' : T'.ids.Nodup)
    (below : v' ∈ T'.subtrees) (ident : v'.kind = .ident name) (other : name ≠ L.library) :
    ∃ v ∈ T.subtrees, v.kind = .ident name ∧ B v'.tag = B v.tag ∧
      ∃ d, T.scopesOf.RefersTo v.tag d ∧ T'.scopesOf.RefersTo v'.tag d := by
  obtain ⟨⟨body', program'⟩, -, top'⟩ :=
    h.program (kind_withImport program) (top.withImport program)
  by_cases inside : T'.InParams v'
  · -- Below a parameter there was no binding before, and there is none now.
    obtain ⟨v, deep, occurs⟩ := h.inParams (targets.withImport program) inside
    obtain ⟨ident', same⟩ := occurs name ident other
    have source := deep.of_withImport program
    exact ⟨v, source.subtree, ident', same, none,
      refersTo_none program distinct top source.subtree source,
      refersTo_none program' distinct' top' below inside⟩
  · obtain ⟨inner, leads⟩ := @exists_leads T' v' [] below inside (by simp [isBlock, ident])
    obtain ⟨path, v, frames, -, occurs, again⟩ := h.leads_program program top targets leads ident
    obtain ⟨ident', same⟩ := occurs name ident other
    have way := again ⟨name, ident'⟩
    have before := refersTo_visible program distinct top way ident'
    have after := refersTo_visible program' distinct' top' leads ident
    rw [frames, visible_withImport program _ other] at after
    rw [List.map_append] at before
    exact ⟨v, way.subtree, ident', same, _, before, after⟩

/-- An identifier of the library refers to the import. -/
theorem Lowers.refersTo_library (distinct' : T'.ids.Nodup) (undeclared : T.Undeclared L.library)
    (below : v' ∈ T'.subtrees) (ident : v'.kind = .ident L.library) (outside : ¬ T'.InParams v') :
    T'.scopesOf.RefersTo v'.tag (some ⟨L.library, .importDefault, x⟩) := by
  obtain ⟨⟨body', program'⟩, -, top'⟩ :=
    h.program (kind_withImport program) (top.withImport program)
  obtain ⟨inner, leads⟩ := @exists_leads T' v' [] below outside (by simp [isBlock, ident])
  obtain ⟨path, v, frames, inside, -, -⟩ := h.leads_program program top targets leads ident
  have refers := refersTo_visible program' distinct' top' leads ident
  rwa [frames, visible_withImport_self program undeclared inside] at refers

end

end Tree

/-! ## What a pass does to the scopes -/

def PassM.KeepsBindings {τ α : Type} (m : PassM τ α) : Prop :=
  ∀ q a q', m q = .ok (a, q') → q'.scopes.bindings = q.scopes.bindings

namespace PassM.KeepsBindings

variable {τ α β : Type}

theorem pure (a : α) : KeepsBindings (Pure.pure a : PassM τ α) := by
  intro q a' q' run
  cases run
  rfl

theorem bind {m : PassM τ α} {k : α → PassM τ β} (first : KeepsBindings m)
    (second : ∀ a, KeepsBindings (k a)) : KeepsBindings (m >>= k) := by
  intro q b q' run
  obtain ⟨⟨a, q₁⟩, before, after⟩ := bind_eq_ok_iff.mp (show (m q >>= fun p => k p.1 p.2) = _ from run)
  exact (second a q₁ b q' after).trans (first q a q₁ before)

theorem get : KeepsBindings (MonadState.get : PassM τ (Pass τ)) := by
  intro q a q' run
  cases run
  rfl

theorem lift (x : Except Fault α) : KeepsBindings (liftM x : PassM τ α) := by
  intro q a q' run
  cases x with
  | error fault => cases run
  | ok a' =>
    cases run
    rfl

theorem modifyGet {f : Pass τ → α × Pass τ} (kept : ∀ q, (f q).2.scopes = q.scopes) :
    KeepsBindings (MonadStateOf.modifyGet f : PassM τ α) := by
  intro q a q' run
  have same : f q = (a, q') := Except.ok.inj run
  have scopes := kept q
  rw [same] at scopes
  exact congrArg Scopes.bindings scopes

theorem forM {list : List β} {walk : β → PassM τ Unit} (each : ∀ x, KeepsBindings (walk x)) :
    KeepsBindings (list.forM walk) := by
  induction list with
  | nil => exact pure ()
  | cons x rest ih => exact bind (each x) fun _ => ih

end PassM.KeepsBindings

open PassM (KeepsBindings)

theorem Scopes.bindings_afterCopy (t : Scopes) (pairs : List (Nat × Nat)) :
    (t.afterCopy pairs).bindings = t.bindings := by
  unfold afterCopy
  induction pairs generalizing t with
  | nil => rfl
  | cons pair rest ih =>
    rw [List.foldl_cons, ih]
    unfold copyReference
    split <;> rfl

namespace Engine

variable {τ : Type} {E : Engine} {enclosing : Slot} {id : Nat}

theorem keeps_alloc {kind : NodeKind} {span : Span} :
    KeepsBindings (PassM.alloc kind span : PassM τ Nat) := by
  intro q a q' run
  obtain ⟨_, -, same⟩ := bind_eq_ok_iff.mp run
  cases same
  rfl

theorem keeps_learn {step : Facts → Facts} : KeepsBindings (PassM.learn step : PassM τ Unit) :=
  .modifyGet fun _ => rfl

theorem keeps_node {slot : Slot} : KeepsBindings (PassM.node slot : PassM τ Node) :=
  .bind .get fun _ => .lift _

theorem keeps_allocList {slots : List Slot} :
    KeepsBindings (PassM.allocList slots : PassM τ Range) := by
  intro q a q' run
  obtain ⟨_, -, same⟩ := bind_eq_ok_iff.mp run
  cases same
  rfl

theorem keeps_replace {slot : Slot} {kind : NodeKind} :
    KeepsBindings (PassM.replace slot kind : PassM τ Unit) := by
  intro q a q' run
  obtain ⟨_, -, same⟩ := bind_eq_ok_iff.mp run
  cases same
  rfl

theorem keeps_copy {slot : Slot} : KeepsBindings (PassM.copy slot : PassM τ Slot) := by
  intro q a q' run
  obtain ⟨⟨copied, store⟩, -, same⟩ := bind_eq_ok_iff.mp run
  cases same
  exact q.scopes.bindings_afterCopy copied.pairs

theorem keeps_intern [Naming τ] {text : String} : KeepsBindings (PassM.intern text : PassM τ Name) :=
  .modifyGet fun _ => rfl

theorem keeps_someBig {slots : List Slot} : KeepsBindings (E.someBig slots : PassM τ Bool) :=
  .modifyGet fun _ => rfl

theorem keeps_libraryMember {property : Name} {span : Span} :
    KeepsBindings (E.libraryMember property span : PassM τ Nat) :=
  .bind keeps_alloc fun _ => keeps_alloc

theorem keeps_applied {rule : Rule} : KeepsBindings (applied enclosing id rule : PassM τ Unit) := by
  refine .bind keeps_learn fun _ => .bind ?_ fun _ => .modifyGet fun _ => rfl
  cases enclosing with
  | none => exact .pure ()
  | some x =>
    refine .modifyGet fun q => ?_
    dsimp only
    split <;> rfl

theorem keeps_lowerLiteral {digits : Name} {span : Span} :
    KeepsBindings (E.lowerLiteral enclosing id digits span : PassM τ Unit) :=
  .bind keeps_libraryMember fun _ => .bind keeps_alloc fun _ =>
    .bind keeps_allocList fun _ => .bind keeps_replace fun _ => keeps_applied

theorem keeps_lowerConstructor {callee : Slot} {args : Range} :
    KeepsBindings (E.lowerConstructor enclosing id callee args : PassM τ Unit) :=
  .bind keeps_node fun _ => .bind keeps_libraryMember fun _ =>
    .bind keeps_replace fun _ => keeps_applied

variable [Naming τ]

theorem keeps_tryOperation {span : Span} {method? : Option String} {operands : List Slot}
    {rule : Rule} :
    KeepsBindings (E.tryOperation enclosing id span method? operands rule : PassM τ Unit) := by
  unfold tryOperation
  split
  · exact .pure ()
  · refine .bind keeps_someBig fun big => ?_
    split
    · exact .bind keeps_intern fun _ => .bind keeps_libraryMember fun _ =>
        .bind keeps_allocList fun _ => .bind keeps_replace fun _ => keeps_applied
    · exact .pure ()

theorem keeps_lowerCompound {method : String} {target value : Slot} :
    KeepsBindings (E.lowerCompound enclosing id method target value : PassM τ Unit) :=
  .bind keeps_copy fun _ => .bind keeps_node fun _ => .bind keeps_intern fun _ =>
    .bind keeps_libraryMember fun _ => .bind keeps_allocList fun _ =>
      .bind keeps_alloc fun _ => .bind keeps_learn fun _ => .bind keeps_replace fun _ =>
        keeps_applied

theorem keeps_enter : KeepsBindings (E.enter enclosing id : PassM τ Step) := by
  refine .bind .get fun q => ?_
  dsimp only
  split
  · exact .pure _
  · refine .bind (.lift _) fun node => ?_
    unfold enterNode
    split
    · exact .bind keeps_lowerLiteral fun _ => .pure _
    · refine .bind .get fun q => ?_
      split
      · exact .bind keeps_lowerConstructor fun _ => .pure _
      · exact .pure _
    · exact .bind keeps_tryOperation fun _ => .pure _
    · exact .bind keeps_tryOperation fun _ => .pure _
    · split
      · exact .pure _
      · exact .bind keeps_someBig fun _ => .pure _
    · exact .pure _

theorem keeps_leave : KeepsBindings (E.leave enclosing id : PassM τ Unit) := by
  refine .bind .get fun q => ?_
  split
  · refine .bind (.lift _) fun kind => ?_
    split
    · refine .bind (.lift _) fun kind' => ?_
      split
      · refine .bind (.lift _) fun slots => .bind keeps_someBig fun big => ?_
        split
        · refine .bind (.bind .get fun q' => ?_) fun _ => keeps_applied
          split
          · exact .bind keeps_intern fun _ => .bind keeps_replace fun _ => keeps_replace
          · exact .pure ()
        · exact .pure ()
      · exact .pure ()
    · exact .pure ()
  · exact .pure ()

theorem keeps_lowerWithin (E : Engine) (fuel : Nat) (enclosing : Slot) (id : Nat) :
    KeepsBindings (E.lowerWithin fuel enclosing id : PassM τ Unit) := by
  induction fuel generalizing enclosing id with
  | zero =>
    intro q a q' run
    cases run
  | succ fuel ih =>
    have below : KeepsBindings (descend (E.lowerWithin fuel) enclosing id : PassM τ Unit) :=
      .bind .get fun _ => .bind (.lift _) fun _ => .forM (ih _)
    refine .bind .get fun q => ?_
    split
    · refine .bind keeps_enter fun step => ?_
      split
      · exact keeps_learn
      · exact .bind below fun _ => .bind keeps_leave fun _ => keeps_learn
      · exact .bind below fun _ => .bind keeps_lowerCompound fun _ => keeps_learn
    · exact .pure ()

end Engine

theorem bindings_of_lower {τ : Type} [Naming τ] {config : Config} {s store : Store} {root : Slot}
    {names names' : τ} {outcome : Outcome} {scopes : Scopes}
    (ran : lower config s root names = .ok ⟨store, names', .ok outcome⟩)
    (resolved : s.resolve root = .ok scopes) : outcome.scopes.bindings = scopes.bindings := by
  unfold lower lowerBy at ran
  split at ran
  · cases ran
  · rw [bind_of_eq resolved] at ran
    obtain ⟨⟨prologue, s₀⟩, -, ran⟩ := bind_eq_ok_iff.mp ran
    dsimp only at ran
    split at ran
    · cases ran
    · obtain ⟨⟨_, q⟩, walked, same⟩ := bind_eq_ok_iff.mp ran
      cases same
      cases root with
      | none =>
        cases walked
        rfl
      | some x =>
        have keeps (E : Engine) : KeepsBindings (E.lowerSlot (some x) : PassM τ Unit) :=
          .bind .get fun _ => E.keeps_lowerWithin _ _ _
        exact keeps _ _ _ _ walked
  · cases ran

/-- The identifiers of the original, and so their occurrences, still have their bindings. -/
theorem UnitRun.refersTo_iff {τ : Type} [Naming τ] {config : Config} {s : Store}
    {T v v' : Tree Nat Name} {names : τ} (run : UnitRun config s T names) (h : WellFormed s T)
    (room : ¬ Overflows (lower config s (some T.tag) names)) {name : Name}
    {d : Option Declaration} (below : v ∈ T.subtrees) (ident : v.kind = .ident name)
    (same : run.final.scopes.bindingOf (some v'.tag) = run.final.scopes.bindingOf (some v.tag)) :
    run.final.scopes.RefersTo v'.tag d ↔ T.scopesOf.RefersTo v.tag d := by
  obtain ⟨facts, ran, -⟩ := run.lower_eq room
  obtain ⟨body, program, -⟩ := h.program
  have scopes : run.setup.scopes = T.scopesOf :=
    Except.ok.inj (run.resolved.symm.trans (Store.resolve_eq h.holds h.entries))
  have other : v ≠ T := by
    intro eq
    cases program.symm.trans (eq ▸ ident)
  have mem := List.mem_map_of_mem (f := Tree.tag) (run.mem_subtrees_of_ne h below other)
  unfold Scopes.RefersTo
  rw [same, run.progress.references v.tag mem, scopes, bindings_of_lower ran run.resolved, scopes]

/--
The scopes of a lowered unit are true of the lowered program. Resolved anew, an identifier
refers to a binding of the same name and kind that the same node declares, or to none as
before. An identifier of the library refers to the import, unless it is below a parameter.
-/
theorem lower_references {s : Store} {T : Tree Nat Name} (h : WellFormed s T)
    (top : T.ProgramsAtTop) (targets : T.FlatTargets) (config : Config) {names : Names}
    (consistent : names.Consistent)
    (undeclared : T.Undeclared (config.intern names).1.library)
    (room : ¬ Overflows (lower config s (some T.tag) names)) :
    ∃ (store : Store) (names' : Names) (outcome : Outcome) (L : LibraryNames) (T' : Tree Nat Name)
      (scopes : Scopes),
      lower config s (some T.tag) names = .ok ⟨store, names', .ok outcome⟩ ∧
      L = (config.intern names).1 ∧ config.Named names' L ∧
      T'.tag = T.tag ∧ store.Holds T' ∧ store.resolve (some T'.tag) = .ok scopes ∧
      (∀ v ∈ T'.subtrees, ∀ name, v.kind = .ident name → name ≠ L.library →
        ∃ d, outcome.scopes.RefersTo v.tag d ∧ scopes.RefersTo v.tag d) ∧
      (∀ v ∈ T'.subtrees, v.kind = .ident L.library → ¬ T'.InParams v →
        scopes.RefersTo v.tag (some ⟨L.library, .importDefault, outcome.importNode⟩)) ∧
      ∀ v ∈ T'.subtrees, T'.InParams v → scopes.RefersTo v.tag none := by
  obtain ⟨run⟩ := h.run config names
  obtain ⟨facts, ran, -⟩ := run.lower_eq room
  obtain ⟨body, program, -⟩ := h.program
  have lowers := run.done.lowers
  have tag : run.lowered.tag = T.tag := lowers.tag_eq.trans run.tag
  rw [run.tree] at lowers
  obtain ⟨⟨body', program'⟩, -, top'⟩ :=
    lowers.program (Tree.kind_withImport program) (top.withImport program)
  have entries : run.lowered.EntriesPresent :=
    lowers.entriesPresent (h.entries.withImport program _ _ _)
  rw [← run.library] at undeclared
  refine ⟨_, _, _, run.setup.library, run.lowered, run.lowered.scopesOf, ran, run.library,
    run.named consistent, tag, run.done.holds, Store.resolve_eq run.done.holds entries,
    fun v' below name ident other => ?_, fun v' below ident outside => ?_,
    fun v' below inside => Tree.refersTo_none program' run.done.distinct top' below inside⟩
  · obtain ⟨v, inside, ident', same, d, before, after⟩ :=
      lowers.refersTo program top targets h.distinct run.done.distinct below ident other
    exact ⟨d, (run.refersTo_iff h room inside ident' same).mpr before, after⟩
  · exact lowers.refersTo_library program top targets run.done.distinct undeclared below ident outside

/-- In the sample a target is copied, and the copy refers to the variable. -/
theorem lower_references_sample :
    WellFormed Sample.store Sample.tree ∧ Sample.tree.ProgramsAtTop ∧ Sample.tree.FlatTargets ∧
    Sample.names.Consistent ∧ Sample.tree.Undeclared (({} : Config).intern Sample.names).1.library ∧
    ¬ Overflows (lower {} Sample.store (some Sample.tree.tag) Sample.names) ∧
    ∃ (store : Store) (names' : Names) (outcome : Outcome) (L : LibraryNames) (T' : Tree Nat Name)
      (scopes : Scopes),
      lower {} Sample.store (some Sample.tree.tag) Sample.names =
        .ok ⟨store, names', .ok outcome⟩ ∧
      L = (({} : Config).intern Sample.names).1 ∧ ({} : Config).Named names' L ∧
      T'.tag = Sample.tree.tag ∧ store.Holds T' ∧ store.resolve (some T'.tag) = .ok scopes ∧
      (∀ v ∈ T'.subtrees, ∀ name, v.kind = .ident name → name ≠ L.library →
        ∃ d, outcome.scopes.RefersTo v.tag d ∧ scopes.RefersTo v.tag d) ∧
      (∀ v ∈ T'.subtrees, v.kind = .ident L.library → ¬ T'.InParams v →
        scopes.RefersTo v.tag (some ⟨L.library, .importDefault, outcome.importNode⟩)) ∧
      ∀ v ∈ T'.subtrees, T'.InParams v → scopes.RefersTo v.tag none := by
  have top : Sample.tree.ProgramsAtTop := by decide +kernel
  have targets : Sample.tree.FlatTargets := by decide +kernel
  have undeclared : Sample.tree.Undeclared (({} : Config).intern Sample.names).1.library := by
    decide +kernel
  exact ⟨Sample.wellFormed, top, targets, Sample.consistent, undeclared, Sample.room,
    lower_references Sample.wellFormed top targets {} Sample.consistent undeclared Sample.room⟩

namespace Sample

/-- The names and the store of `(5n) => null;` with a literal in the place of the parameter. -/
def literalNames : Names :=
  ["5"].foldl (fun t text => (t.intern text).2) .fresh

@[inherit_doc literalNames]
def literalStore : Store where
  nodes := #[
    ⟨.bigInt 1, ⟨1, 3⟩⟩, ⟨.null, ⟨8, 12⟩⟩, ⟨.arrow ⟨0, 1⟩ (some 1), ⟨0, 12⟩⟩,
    ⟨.exprStmt (some 2), ⟨0, 13⟩⟩, ⟨.program ⟨1, 1⟩, ⟨0, 13⟩⟩]
  lists := #[some 0, some 3]

def literalTree : Tree Nat Name :=
  .node 4 (.program [some (.node 3 (.exprStmt (some (.node 2 (.arrow
    [some (.node 0 (.bigInt 1))] (some (.node 1 .null)))))))])

def literalLowered : Tree Nat Name :=
  .node 4 (.program [some (.node 5 (.importDefault 2 3)), some (.node 3 (.exprStmt
    (some (.node 2 (.arrow [some (.node 0 (.call (some (Tree.libraryMember 2 4 6 7))
      [some (.node 8 (.str 1))]))] (some (.node 1 .null)))))))])

end Sample

/-- The library's identifier in a lowered parameter does not refer to the import. -/
theorem lower_references_parameter :
    ∃ (store : Store) (names' : Names) (outcome : Outcome) (T' : Tree Nat Name) (scopes : Scopes),
      WellFormed Sample.literalStore Sample.literalTree ∧ Sample.literalTree.ProgramsAtTop ∧
      Sample.literalTree.FlatTargets ∧ Sample.literalNames.Consistent ∧
      Sample.literalTree.Undeclared (({} : Config).intern Sample.literalNames).1.library ∧
      lower {} Sample.literalStore (some 4) Sample.literalNames = .ok ⟨store, names', .ok outcome⟩ ∧
      T'.tag = 4 ∧ store.Holds T' ∧ store.resolve (some 4) = .ok scopes ∧
      ¬ ∀ v ∈ T'.subtrees, v.kind = .ident (({} : Config).intern Sample.literalNames).1.library →
        scopes.RefersTo v.tag (some ⟨(({} : Config).intern Sample.literalNames).1.library,
          .importDefault, outcome.importNode⟩) := by
  have wellFormed : WellFormed Sample.literalStore Sample.literalTree := by decide +kernel
  obtain ⟨run⟩ := wellFormed.run {} Sample.literalNames
  obtain ⟨facts, ran, -⟩ := run.lower_eq (by decide +kernel)
  have evaluated : (match lower {} Sample.literalStore (some 4) Sample.literalNames with
      | .ok lowered => decide (lowered.store.Holds Sample.literalLowered) &&
        match lowered.store.resolve (some 4) with
        | .ok scopes => decide (scopes.bindingOf (some 6) = none)
        | .error _ => false
      | .error _ => false) = true := by
    decide +kernel
  rw [show lower {} Sample.literalStore (some 4) Sample.literalNames = _ from ran] at evaluated
  obtain ⟨held, unresolved⟩ := Bool.and_eq_true_iff.mp evaluated
  have holds : run.final.store.Holds Sample.literalLowered := of_decide_eq_true held
  have resolved : run.final.store.resolve (some 4) = .ok Sample.literalLowered.scopesOf :=
    Store.resolve_eq holds (by decide +kernel)
  rw [resolved] at unresolved
  have unbound : Sample.literalLowered.scopesOf.bindingOf (some 6) = none :=
    of_decide_eq_true unresolved
  refine ⟨_, _, _, Sample.literalLowered, _, wellFormed, by decide +kernel, by decide +kernel,
    Names.consistent_fresh.interned _, by decide +kernel, ran, rfl, holds, resolved, fun refer => ?_⟩
  have below : .node 6 (.ident 2) ∈ Sample.literalLowered.subtrees :=
    List.mem_of_getElem? (i := 6) rfl
  have library : (({} : Config).intern Sample.literalNames).1.library = 2 := by decide +kernel
  have refers := refer _ below (by rw [library]; rfl)
  unfold Scopes.RefersTo at refers
  rw [show Tree.tag (.node 6 (.ident 2) : Tree Nat Name) = 6 from rfl, unbound] at refers
  exact refers

end BigLower
