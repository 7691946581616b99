import BigLower.Proofs.Lexical
import BigLower.Proofs.Relowering

/-! # Scopes of lowered trees

Lowering moves expressions into calls, but no node that opens a scope and no node that
declares a name. So a walk over the lowered tree goes through nodes that declare the same
names as those on a walk over the original, and comes to the same identifiers or to copies
of them. What an identifier refers to is therefore still true of the lowered tree.
-/

namespace BigLower

theorem Kind.isInert_of_operation? {ν σ ρ : Type} {k : Kind ν σ ρ} {method : String}
    {operands : List σ} (op : k.operation? = some (method, operands)) : k.isInert = false := by
  cases k <;> first | rfl | cases op

namespace Tree

variable {L : LibraryNames} {w : Spelling} {start : Nat} {R : Nat → Bool} {B : Nat → Option Nat}
  {T T' u u' v v' c c' : Tree Nat Name}

/-! ## Declarations -/

/-- A node stays with its children lowered, or it is and becomes an expression that a rule is for. -/
theorem Lowers.kept_or (h : Lowers L w start R B T T') :
    (∃ f, T' = T.mapChildren f ∧ ∀ c ∈ T.children, Lowers L w start R B c (f c)) ∨
      T.kind.isInert = false ∧ T'.kind.isInert = false := by
  cases h with
  | literal kind | constructor _ kind | redirect _ kind | compound _ kind =>
    exact .inr ⟨by rw [kind]; rfl, rfl⟩
  | operation _ op => exact .inr ⟨Kind.isInert_of_operation? op, rfl⟩
  | keep f _ _ _ below => exact .inl ⟨f, rfl, below⟩

/-- What such an expression has nothing of. -/
structure Silent (T : Tree Nat Name) : Prop where
  opens : T.opens = false
  statements : statements? (some T) = none
  declarator : ∀ kind, declaratorOf kind (some T) = []
  parameter : parameterOf (some T) = []
  lexical : lexicalOf (some T) = []
  hoisted : T.hoisted = []
  visited : T.visited = T.children

theorem silent (active : T.kind.isInert = false) : T.Silent := by
  obtain ⟨x, k⟩ := T
  cases k <;> first | exact ⟨rfl, rfl, fun _ => rfl, rfl, rfl, rfl, rfl⟩ | cases active

theorem flatMap_parts {f : Tree Nat Name → Tree Nat Name} {list : List (Part Nat Name)}
    {found : Part Nat Name → List Declaration}
    (each : ∀ c, some c ∈ list → found (some (f c)) = found (some c)) :
    (list.map (Option.map f)).flatMap found = list.flatMap found := by
  rw [List.flatMap_map]
  refine List.flatMap_congr fun part mem => ?_
  cases part with
  | none => rfl
  | some c => exact each c mem

theorem Lowers.declarator (h : Lowers L w start R B T T') (kind : BindingKind) :
    declaratorOf kind (some T') = declaratorOf kind (some T) := by
  rcases h.kept_or with ⟨f, rfl, -⟩ | ⟨active, active'⟩
  · obtain ⟨x, k⟩ := T
    cases k <;> rfl
  · rw [(silent active).declarator, (silent active').declarator]

theorem Lowers.parameter (h : Lowers L w start R B T T') :
    parameterOf (some T') = parameterOf (some T) := by
  rcases h.kept_or with ⟨f, rfl, -⟩ | ⟨active, active'⟩
  · obtain ⟨x, k⟩ := T
    cases k <;> rfl
  · rw [(silent active).parameter, (silent active').parameter]

theorem Lowers.lexical (h : Lowers L w start R B T T') :
    lexicalOf (some T') = lexicalOf (some T) := by
  rcases h.kept_or with ⟨f, rfl, below⟩ | ⟨active, active'⟩
  · obtain ⟨x, k⟩ := T
    cases k with
    | varDecl keyword list =>
      have same : declarators keyword.bindingKind (list.map (Option.map f)) =
          declarators keyword.bindingKind list := flatMap_parts fun c mem =>
        (below c (child_of_list (by simp [Tree.kind, Kind.parts]) mem)).declarator _
      show (if keyword.isLexical then _ else _) = if keyword.isLexical then _ else _
      rw [same]
    | _ => rfl
  · rw [(silent active).lexical, (silent active').lexical]

theorem Lowers.hoisted (h : Lowers L w start R B T T') : T'.hoisted = T.hoisted := by
  induction T using Tree.induction generalizing T' with
  | step T ih =>
    rcases h.kept_or with ⟨f, rfl, below⟩ | ⟨active, active'⟩
    · have optional (part : Part Nat Name) (inside : ∀ c ∈ part, c ∈ T.children) :
          hoistedOf (part.map f) = hoistedOf part := by
        cases part with
        | none => rfl
        | some c => exact ih c (inside c rfl) (below c (inside c rfl))
      obtain ⟨x, k⟩ := T
      have child {c : Tree Nat Name} {list : List (Part Nat Name)} (mem : some c ∈ list)
          (part : .inr list ∈ k.parts) : c ∈ (node x k).children := child_of_list part mem
      cases k with
      | varDecl keyword list =>
        cases keyword with
        | var =>
          exact flatMap_parts fun c mem =>
            (below c (child mem (by simp [Kind.parts]))).declarator .var
        | let_ | const => rfl
      | block list =>
        show hoistedList (list.map (Option.map f)) = hoistedList list
        rw [hoistedList_eq, hoistedList_eq]
        exact flatMap_parts fun c mem =>
          ih c (child mem (by simp [Kind.parts])) (below c (child mem (by simp [Kind.parts])))
      | cond test yes no =>
        have inside (part : Part Nat Name) (mem : part ∈ [test, yes, no]) :
            ∀ c ∈ part, c ∈ (node x (.cond test yes no)).children := by
          intro c same
          cases same
          simpa [mem_children_iff, Tree.kind, Kind.slots, Kind.parts] using mem
        show hoistedOf (yes.map f) ++ hoistedOf (no.map f) = hoistedOf yes ++ hoistedOf no
        rw [optional yes (inside yes (by simp)), optional no (inside no (by simp))]
      | _ => rfl
    · rw [(silent active).hoisted, (silent active').hoisted]

section Statements

variable {list : List (Part Nat Name)} {f : Tree Nat Name → Tree Nat Name}
  (each : ∀ c, some c ∈ list → Lowers L w start R B c (f c))

include each

theorem hoistedList_lowered : hoistedList (list.map (Option.map f)) = hoistedList list := by
  rw [hoistedList_eq, hoistedList_eq]
  exact flatMap_parts fun c mem => (each c mem).hoisted

theorem lexicals_lowered : lexicals (list.map (Option.map f)) = lexicals list :=
  flatMap_parts fun c mem => (each c mem).lexical

theorem parameters_lowered : parameters (list.map (Option.map f)) = parameters list :=
  flatMap_parts fun c mem => (each c mem).parameter

end Statements

/-- A body is a block before and after, with the same statements but lowered, or is none. -/
theorem statements_lowered {body : Part Nat Name} {f : Tree Nat Name → Tree Nat Name}
    (each : ∀ b ∈ body, Lowers L w start R B b (f b)) :
    (∃ list g, statements? body = some list ∧
      statements? (body.map f) = some (list.map (Option.map g)) ∧
      ∀ c, some c ∈ list → Lowers L w start R B c (g c)) ∨
    statements? body = none ∧ statements? (body.map f) = none := by
  cases body with
  | none => exact .inr ⟨rfl, rfl⟩
  | some b =>
    have lowered : Lowers L w start R B b (f b) := each b rfl
    show (∃ list g, _ ∧ statements? (some (f b)) = _ ∧ _) ∨ _ ∧ statements? (some (f b)) = none
    rcases lowered.kept_or with ⟨g, same, below⟩ | ⟨active, active'⟩
    · rw [same]
      obtain ⟨x, k⟩ := b
      cases k with
      | block list =>
        exact .inl ⟨list, g, rfl, rfl, fun c mem =>
          below c (child_of_list (by simp [Tree.kind, Kind.parts]) mem)⟩
      | _ => exact .inr ⟨rfl, rfl⟩
    · exact .inr ⟨(silent active).statements, (silent active').statements⟩

section Kept

variable {f : Tree Nat Name → Tree Nat Name} (below : ∀ c ∈ T.children, Lowers L w start R B c (f c))

include below

omit below in
theorem opens_mapChildren : (T.mapChildren f).opens = T.opens := by
  obtain ⟨x, k⟩ := T
  cases k <;> rfl

omit below in
theorem ident_of_mapChildren {name : Name} (ident : (T.mapChildren f).kind = .ident name) :
    T.kind = .ident name := by
  obtain ⟨x, k⟩ := T
  cases k <;> first | exact ident | cases ident

/-- A node that stays declares what it did. -/
theorem declared_mapChildren : (T.mapChildren f).declared = T.declared := by
  obtain ⟨x, k⟩ := T
  have listed {list : List (Part Nat Name)} (part : .inr list ∈ k.parts) :
      ∀ c, some c ∈ list → Lowers L w start R B c (f c) := fun c mem =>
    below c (child_of_list part mem)
  cases k with
  | program list =>
    have each := @listed list (by simp [Kind.parts])
    show hoistedList _ ++ lexicals _ = hoistedList _ ++ lexicals _
    rw [hoistedList_lowered each, lexicals_lowered each]
  | block list => exact lexicals_lowered (@listed list (by simp [Kind.parts]))
  | function _ params body | arrow params body =>
    have first := parameters_lowered (@listed params (by simp [Kind.parts]))
    have inside : ∀ b ∈ body, Lowers L w start R B b (f b) := by
      intro b same
      cases same
      exact below b (by simp [mem_children_iff, Tree.kind, Kind.slots, Kind.parts])
    simp only [declared, mapChildren, Tree.kind, Kind.map]
    rw [first]
    rcases statements_lowered inside with ⟨list, g, block, block', each⟩ | ⟨plain, plain'⟩
    · rw [block, block']
      dsimp only
      rw [hoistedList_lowered each, lexicals_lowered each]
    · rw [plain, plain']
  | _ => rfl

/-- What is visited in a node that stays was visited before it was lowered. -/
theorem exists_visited (mem : c' ∈ (T.mapChildren f).visited) :
    ∃ c ∈ T.visited, Lowers L w start R B c c' := by
  obtain ⟨x, k⟩ := T
  have child : ∀ c' ∈ ((node x k).mapChildren f).children, ∃ c ∈ (node x k).children,
      Lowers L w start R B c c' := by
    intro c' mem
    rw [children_mapChildren] at mem
    obtain ⟨c, inside, rfl⟩ := List.mem_map.mp mem
    exact ⟨c, inside, below c inside⟩
  cases k with
  | function _ params body | arrow params body =>
    have inside : ∀ b ∈ body, Lowers L w start R B b (f b) := by
      intro b same
      cases same
      exact below b (by simp [mem_children_iff, Tree.kind, Kind.slots, Kind.parts])
    simp only [visited, mapChildren, Tree.kind, Kind.map] at mem ⊢
    rcases statements_lowered inside with ⟨list, g, block, block', each⟩ | ⟨plain, plain'⟩
    · rw [block'] at mem
      rw [block]
      obtain ⟨c, here, rfl⟩ : ∃ c, some c ∈ list ∧ g c = c' := some_mem_map.mp (by simpa using mem)
      exact ⟨c, by simpa using here, each c here⟩
    · rw [plain'] at mem
      rw [plain]
      obtain ⟨b, here, rfl⟩ : ∃ b, body = some b ∧ f b = c' :=
        Option.map_eq_some_iff.mp (by simpa using mem)
      exact ⟨b, by simp [here], inside b here⟩
  | _ => exact child c' mem

end Kept

/-! ## Walks -/

def Flat (T : Tree Nat Name) : Prop :=
  ∀ u ∈ T.subtrees, u.opens = false

def compoundTarget (T : Tree Nat Name) : Part Nat Name :=
  match T.kind with
  | .assign op target _ => if op = .plain then none else target
  | _ => none

def FlatTargets (T : Tree Nat Name) : Prop :=
  ∀ u ∈ T.subtrees, ∀ D ∈ u.compoundTarget, D.Flat

instance : Decidable T.FlatTargets :=
  inferInstanceAs (Decidable (∀ u ∈ T.subtrees, ∀ D ∈ u.compoundTarget, ∀ v ∈ D.subtrees,
    v.opens = false))

theorem FlatTargets.target (h : T.FlatTargets) {op : AssignOp} {target value : Part Nat Name}
    (assign : T.kind = .assign op target value) {method : String} (found : op.method? = some method)
    {D : Tree Nat Name} (mem : D ∈ target) : D.Flat := by
  have compound : op ≠ .plain := by
    intro eq
    cases eq
    cases found
  refine h T T.self_mem_subtrees D ?_
  simpa [compoundTarget, assign, compound] using mem

theorem FlatTargets.subtree (h : T.FlatTargets) (below : u ∈ T.subtrees) : u.FlatTargets :=
  fun v inside => h v (subtrees_trans below inside)

theorem flat_iff_everywhere : T.Flat ↔ T.Everywhere fun k =>
    (match k with | .program _ | .block _ | .function .. | .arrow .. => true | _ => false) = false := by
  refine forall₂_congr fun u _ => ?_
  unfold opens outline
  cases u.kind <;> rfl

theorem Lowers.flat (h : Lowers L w start R B T T') (flat : T.Flat) : T'.Flat :=
  flat_iff_everywhere.mpr (h.everywhere ⟨fun _ _ => rfl, fun _ => rfl, rfl, fun _ => rfl, fun _ => rfl⟩
    (flat_iff_everywhere.mp flat))

variable {outer outer' inner inner' : List (Tree Nat Name)}

theorem visited_of_flat (leaf : T.opens = false) : T.visited = T.children := by
  unfold opens at leaf
  unfold visited
  cases own : T.kind <;> simp_all

theorem Leads.flat (leads : Leads outer u inner v) (flat : u.Flat) : inner = outer := by
  induction leads with
  | here => rfl
  | @inside outer inner u c v visited leads ih =>
    have around : u.around outer = outer := by simp [Tree.around, flat u u.self_mem_subtrees]
    rw [around] at ih
    exact ih fun w below => flat w (subtrees_trans (subtree_of_visited visited) below)

theorem leads_of_flat (flat : u.Flat) (below : v ∈ u.subtrees) : Leads outer u outer v := by
  induction u using Tree.induction with
  | step u ih =>
    rcases mem_subtrees_iff.mp below with rfl | ⟨c, child, inside⟩
    · exact .here outer v
    · have leaf := flat u u.self_mem_subtrees
      have around : u.around outer = outer := by simp [Tree.around, leaf]
      refine .inside (visited_of_flat leaf ▸ child) (around.symm ▸ ih c child ?_ inside)
      exact fun w deep => flat w (mem_subtrees_of_child child deep)

/-- An identifier in a copy is one of the original, and refers to the same variable. -/
theorem ident_of_relabel (same : v'.relabel B = v.relabel B) {name : Name}
    (ident : v'.kind = .ident name) : v.kind = .ident name ∧ B v'.tag = B v.tag := by
  have kinds := congrArg Tree.kind same
  have tags := congrArg Tree.tag same
  rw [kind_relabel, kind_relabel, ident] at kinds
  rw [tag_relabel, tag_relabel] at tags
  refine ⟨?_, tags⟩
  cases own : v.kind <;> simp_all [Kind.map]

theorem Flat.of_relabel {D D' : Tree Nat Name} (flat : D.Flat)
    (copied : D'.relabel B = D.relabel B) : D'.Flat := by
  have relabelled : (some D').map (relabel B) = (some D).map (relabel B) := congrArg some copied
  have forms : D'.form = D.form := Option.some.inj (form_of_relabel relabelled)
  rw [flat_iff_everywhere, ← everywhere_form, forms, everywhere_form, ← flat_iff_everywhere]
  exact flat

/-- A walk into the copy of a tree without scopes follows one into the tree itself. -/
theorem Leads.copy {D D' : Tree Nat Name} (copied : D'.relabel B = D.relabel B) (flat : D.Flat)
    (leads : Leads outer D' inner v') : inner = outer ∧ ∃ v, Leads outer D outer v ∧
      ∀ name, v'.kind = .ident name → v.kind = .ident name ∧ B v'.tag = B v.tag := by
  obtain ⟨v, inside, alike⟩ := exists_relabelled copied leads.subtree
  exact ⟨leads.flat (flat.of_relabel copied), v, leads_of_flat flat inside,
    fun name => ident_of_relabel alike⟩

/-- One node is an occurrence of another: if it is an identifier, but not the library, so is the other. -/
def Occurs (library : Name) (B : Nat → Option Nat) (v v' : Tree Nat Name) : Prop :=
  ∀ name, v'.kind = .ident name → name ≠ library → v.kind = .ident name ∧ B v'.tag = B v.tag

theorem Occurs.trans {library : Name} {v₀ : Tree Nat Name} (h : Occurs library B v v₀)
    (alike : ∀ name, v'.kind = .ident name → v₀.kind = .ident name ∧ B v'.tag = B v₀.tag) :
    Occurs library B v v' := by
  intro name ident different
  obtain ⟨ident₀, refers⟩ := alike name ident
  obtain ⟨ident', refers'⟩ := h name ident₀ different
  exact ⟨ident', refers.trans refers'⟩

theorem flat_libraryMember (library property : Name) (o m : Nat) :
    (libraryMember library property o m).Flat := by
  have listed : (libraryMember library property o m).subtrees =
      [libraryMember library property o m, .node o (.ident library)] := rfl
  intro w below
  rcases List.mem_pair.mp (listed ▸ below) with rfl | rfl <;> rfl

theorem ident_of_libraryMember {library property : Name} {o m : Nat}
    (below : v ∈ (libraryMember library property o m).subtrees) {name : Name}
    (ident : v.kind = .ident name) : name = library := by
  have listed : (libraryMember library property o m).subtrees =
      [libraryMember library property o m, .node o (.ident library)] := rfl
  rcases List.mem_pair.mp (listed ▸ below) with rfl | rfl
  · cases ident
  · cases ident
    rfl

/-- A walk into a call of the library comes to the library's own identifier or goes into an argument. -/
theorem Leads.libraryCall {library property : Name} {o m x : Nat} {args : List (Part Nat Name)}
    (leads : Leads outer (node x (.call (some (libraryMember library property o m)) args)) inner v) :
    (inner = outer ∧ ∀ name, v.kind = .ident name → name = library) ∨
      ∃ c, some c ∈ args ∧ Leads outer c inner v := by
  cases leads with
  | here => exact .inl ⟨rfl, nofun⟩
  | inside visited leads =>
    rw [visited_of_flat rfl, children_of_call rfl] at visited
    rcases List.mem_cons.mp visited with rfl | arg
    · exact .inl ⟨leads.flat (flat_libraryMember library property o m), fun name =>
        ident_of_libraryMember leads.subtree⟩
    · exact .inr ⟨_, by simpa using arg, leads⟩

/-- A walk into a lowered assignment goes on in the target, in the value or in the copy. -/
theorem Leads.loweredAssign {library property : Name} {o m x call : Nat}
    {target copy value : Part Nat Name} {f : Tree Nat Name → Tree Nat Name}
    (leads : Leads outer (loweredAssign x library property o m call (target.map f) copy (value.map f))
      inner v) :
    (inner = outer ∧ ∀ name, v.kind = .ident name → name = library) ∨
      (∃ c, some c ∈ [target, value] ∧ Leads outer (f c) inner v) ∨
      ∃ D, copy = some D ∧ Leads outer D inner v := by
  cases leads with
  | here => exact .inl ⟨rfl, nofun⟩
  | inside visited leads =>
    rw [visited_of_flat rfl, children_loweredAssign] at visited
    rcases List.mem_append.mp visited with first | second
    · obtain ⟨c, rfl, rfl⟩ := Option.map_eq_some_iff.mp (Option.mem_toList.mp first)
      exact .inr (.inl ⟨c, List.mem_cons_self, leads⟩)
    · cases List.mem_singleton.mp second
      rcases leads.libraryCall with ends | ⟨D, arg, leads⟩
      · exact .inl ends
      · rcases List.mem_pair.mp arg with rfl | last
        · exact .inr (.inr ⟨D, rfl, leads⟩)
        · obtain ⟨c, rfl, rfl⟩ := Option.map_eq_some_iff.mp last.symm
          exact .inr (.inl ⟨c, List.mem_cons_of_mem _ List.mem_cons_self, leads⟩)

/-- A copy is the copy of a lowered target. -/
theorem exists_copied {target : Part Nat Name} {f : Tree Nat Name → Tree Nat Name}
    {D : Tree Nat Name}
    (copied : (some D).map (relabel B) = (target.map f).map (relabel B)) :
    ∃ t, target = some t ∧ D.relabel B = (f t).relabel B := by
  obtain ⟨_, mapped, same⟩ := Option.map_eq_some_iff.mp copied.symm
  obtain ⟨t, rfl, rfl⟩ := Option.map_eq_some_iff.mp mapped
  exact ⟨t, rfl, same.symm⟩

/--
A walk over the lowered tree follows one over the original: the nodes with scopes that
they go through declare the same, and they come to occurrences of the same node.
-/
theorem Lowers.leads (h : Lowers L w start R B u u') (targets : u.FlatTargets)
    (leads : Leads outer' u' inner' v') (same : outer'.map declared = outer.map declared) :
    ∃ inner v, Leads outer u inner v ∧ inner'.map declared = inner.map declared ∧
      Occurs L.library B v v' := by
  induction u using induction_visited generalizing outer outer' u' inner' v' with
  | step u ih =>
    have here (other : ∀ name, v'.kind = .ident name → name = L.library) (stays : inner' = outer') :
        ∃ inner v, Leads outer u inner v ∧ inner'.map declared = inner.map declared ∧
          Occurs L.library B v v' := by
      refine ⟨outer, u, .here outer u, stays ▸ same, fun name ident different => ?_⟩
      exact (different (other name ident)).elim
    -- The parts of an expression that a rule was applied to have no scope between them and the top.
    have part (active : u.kind.isInert = false) {c c' : Tree Nat Name} (child : c ∈ u.children)
        (lowered : Lowers L w start R B c c') {v' : Tree Nat Name} {inner' : List (Tree Nat Name)}
        (leads : Leads outer' c' inner' v') :
        ∃ inner v, Leads outer u inner v ∧ inner'.map declared = inner.map declared ∧
          Occurs L.library B v v' := by
      have visited : c ∈ u.visited := (silent active).visited ▸ child
      have around : u.around outer = outer := by simp [Tree.around, (silent active).opens]
      obtain ⟨inner, v, way, alike, occurs⟩ := ih c visited lowered
        (targets.subtree (child_mem_subtrees child)) leads same
      exact ⟨inner, v, .inside visited (around.symm ▸ way), alike, occurs⟩
    have called {property : Name} {o m : Nat} {args : List (Part Nat Name)}
        {f : Tree Nat Name → Tree Nat Name} (active : u.kind.isInert = false)
        (child : ∀ c, some c ∈ args → c ∈ u.children)
        (each : ∀ c, some c ∈ args → Lowers L w start R B c (f c))
        (leads : Leads outer' (node u.tag (.call (some (libraryMember L.library property o m))
          (args.map (Option.map f)))) inner' v') :
        ∃ inner v, Leads outer u inner v ∧ inner'.map declared = inner.map declared ∧
          Occurs L.library B v v' := by
      rcases leads.libraryCall with ⟨stays, other⟩ | ⟨c', arg, leads⟩
      · exact here other stays
      · obtain ⟨c, mem, rfl⟩ := some_mem_map.mp arg
        exact part active (child c mem) (each c mem) leads
    cases h with
    | literal kind =>
      rcases leads.libraryCall with ⟨stays, other⟩ | ⟨c', arg, leads⟩
      · exact here other stays
      · cases List.mem_singleton.mp arg
        cases leads with
        | here => exact here (fun _ ident => by cases ident) rfl
        | inside visited _ => cases visited
    | constructor f kind _ _ _ each | redirect f kind _ _ _ _ _ each =>
      exact called (by rw [kind]; rfl) (fun c => child_of_arg kind) each leads
    | operation f op _ _ _ each =>
      exact called (Kind.isInert_of_operation? op) (fun c => child_of_operation op) each leads
    | @compound _ op target value copy method property o m call f kind found _ _ _ each copied =>
      have active : u.kind.isInert = false := by rw [kind]; rfl
      have lowered {c : Tree Nat Name} (mem : some c ∈ [target, value]) {v' : Tree Nat Name}
          {inner' : List (Tree Nat Name)} (leads : Leads outer' (f c) inner' v') :=
        part active (child_of_assign kind mem) (each c mem) leads
      rcases leads.loweredAssign with ⟨stays, other⟩ | ⟨c, mem, further⟩ | ⟨D, rfl, further⟩
      · exact here other stays
      · exact lowered mem further
      · -- What a walk finds in the copy, it finds at the same place in the target.
        obtain ⟨t, rfl, same'⟩ := exists_copied copied
        have flat := (each t List.mem_cons_self).flat (targets.target kind found rfl)
        obtain ⟨stays, v₀, way₀, alike⟩ := further.copy same' flat
        obtain ⟨inner, v, way, frames, occurs⟩ := lowered List.mem_cons_self way₀
        exact ⟨inner, v, way, stays ▸ frames, occurs.trans alike⟩
    | keep f _ _ _ below =>
      cases leads with
      | here =>
        exact ⟨outer, u, .here outer u, same, fun name ident _ => ⟨ident_of_mapChildren ident, rfl⟩⟩
      | inside visited leads =>
        obtain ⟨c, mem, lowered⟩ := exists_visited below visited
        have frames : ((u.mapChildren f).around outer').map declared =
            (u.around outer).map declared := by
          unfold Tree.around
          rw [opens_mapChildren]
          split
          · rw [List.map_cons, List.map_cons, declared_mapChildren below, same]
          · exact same
        obtain ⟨inner, v, way, alike, occurs⟩ := ih c mem lowered
          (targets.subtree (subtree_of_visited mem)) leads frames
        exact ⟨inner, v, .inside mem way, alike, occurs⟩

/-! ## Parameters -/

theorem inParams_iff : T.InParams v ↔
    (∃ p, some p ∈ T.params ∧ v ∈ p.subtrees) ∨ ∃ c ∈ T.children, c.InParams v := by
  apply Iff.intro
  · intro inside
    obtain ⟨f, below, p, param, deep⟩ := inside
    rcases mem_subtrees_iff.mp below with rfl | ⟨c, child, below⟩
    · exact .inl ⟨p, param, deep⟩
    · exact .inr ⟨c, child, f, below, p, param, deep⟩
  · intro inside
    rcases inside with ⟨p, param, deep⟩ | ⟨c, child, f, below, rest⟩
    · exact ⟨T, T.self_mem_subtrees, p, param, deep⟩
    · exact ⟨f, mem_subtrees_of_child child below, rest⟩

theorem InParams.of_child (inside : c.InParams v) (child : c ∈ T.children) : T.InParams v :=
  inParams_iff.mpr (.inr ⟨c, child, inside⟩)

theorem InParams.subtree (inside : T.InParams v) : v ∈ T.subtrees := by
  obtain ⟨f, below, p, param, deep⟩ := inside
  exact subtrees_trans below (mem_subtrees_of_child (child_of_param param) deep)

theorem Flat.not_inParams (flat : T.Flat) : ¬ T.InParams v := by
  intro inside
  obtain ⟨f, below, p, param, -⟩ := inside
  have leaf := flat f below
  unfold opens at leaf
  unfold params at param
  cases own : f.kind <;> simp_all

theorem params_mapChildren (f : Tree Nat Name → Tree Nat Name) :
    (T.mapChildren f).params = T.params.map (Option.map f) := by
  obtain ⟨x, k⟩ := T
  cases k <;> rfl

section LibraryCall

variable {library property : Name} {o m x : Nat} {args : List (Part Nat Name)}

theorem mem_libraryCall
    (below : v ∈ (node x (.call (some (libraryMember library property o m)) args)).subtrees) :
    (∀ name, v.kind = .ident name → name = library) ∨ ∃ c, some c ∈ args ∧ v ∈ c.subtrees := by
  rcases mem_subtrees_iff.mp below with rfl | ⟨c, child, inside⟩
  · exact .inl nofun
  · rw [children_of_call rfl] at child
    rcases List.mem_cons.mp child with rfl | arg
    · exact .inl fun name => ident_of_libraryMember inside
    · exact .inr ⟨c, by simpa using arg, inside⟩

theorem inParams_libraryCall
    (inside : (node x (.call (some (libraryMember library property o m)) args)).InParams v) :
    ∃ c, some c ∈ args ∧ c.InParams v := by
  rcases inParams_iff.mp inside with ⟨p, param, -⟩ | ⟨c, child, inside⟩
  · cases param
  · rw [children_of_call rfl] at child
    rcases List.mem_cons.mp child with rfl | arg
    · exact ((flat_libraryMember library property o m).not_inParams inside).elim
    · exact ⟨c, by simpa using arg, inside⟩

variable {call : Nat} {target copy value : Part Nat Name} {f : Tree Nat Name → Tree Nat Name}

theorem mem_loweredAssign (below : v ∈
      (loweredAssign x library property o m call (target.map f) copy (value.map f)).subtrees) :
    (∀ name, v.kind = .ident name → name = library) ∨
      (∃ c, some c ∈ [target, value] ∧ v ∈ (f c).subtrees) ∨ ∃ D, copy = some D ∧ v ∈ D.subtrees := by
  rcases mem_subtrees_iff.mp below with rfl | ⟨c, child, inside⟩
  · exact .inl nofun
  · rw [children_loweredAssign] at child
    rcases List.mem_append.mp child with first | second
    · obtain ⟨c, rfl, rfl⟩ := Option.map_eq_some_iff.mp (Option.mem_toList.mp first)
      exact .inr (.inl ⟨c, List.mem_cons_self, inside⟩)
    · cases List.mem_singleton.mp second
      rcases mem_libraryCall inside with other | ⟨D, arg, deeper⟩
      · exact .inl other
      · rcases List.mem_pair.mp arg with rfl | last
        · exact .inr (.inr ⟨D, rfl, deeper⟩)
        · obtain ⟨c, rfl, rfl⟩ := Option.map_eq_some_iff.mp last.symm
          exact .inr (.inl ⟨c, List.mem_cons_of_mem _ List.mem_cons_self, deeper⟩)

theorem inParams_loweredAssign (inside :
      (loweredAssign x library property o m call (target.map f) copy (value.map f)).InParams v) :
    (∃ c, some c ∈ [target, value] ∧ (f c).InParams v) ∨ ∃ D, copy = some D ∧ D.InParams v := by
  rcases inParams_iff.mp inside with ⟨p, param, -⟩ | ⟨c, child, inside⟩
  · cases param
  · rw [children_loweredAssign] at child
    rcases List.mem_append.mp child with first | second
    · obtain ⟨c, rfl, rfl⟩ := Option.map_eq_some_iff.mp (Option.mem_toList.mp first)
      exact .inl ⟨c, List.mem_cons_self, inside⟩
    · cases List.mem_singleton.mp second
      obtain ⟨D, arg, deeper⟩ := inParams_libraryCall inside
      rcases List.mem_pair.mp arg with rfl | last
      · exact .inr ⟨D, rfl, deeper⟩
      · obtain ⟨c, rfl, rfl⟩ := Option.map_eq_some_iff.mp last.symm
        exact .inl ⟨c, List.mem_cons_of_mem _ List.mem_cons_self, deeper⟩

end LibraryCall

/-- Every node of a lowered tree is an occurrence of a node of the tree. -/
theorem Lowers.exists_source (h : Lowers L w start R B u u') (below : v' ∈ u'.subtrees) :
    ∃ v ∈ u.subtrees, Occurs L.library B v v' := by
  have top {T v' : Tree Nat Name} (other : ∀ name, v'.kind = .ident name → name = L.library) :
      ∃ v ∈ T.subtrees, Occurs L.library B v v' :=
    ⟨T, T.self_mem_subtrees, fun name ident different => (different (other name ident)).elim⟩
  have called {T v' : Tree Nat Name} {property : Name} {o m x : Nat} {args : List (Part Nat Name)}
      {f : Tree Nat Name → Tree Nat Name} (child : ∀ c, some c ∈ args → c ∈ T.children)
      (ih : ∀ c, some c ∈ args → v' ∈ (f c).subtrees → ∃ v ∈ c.subtrees, Occurs L.library B v v')
      (below : v' ∈ (node x (.call (some (libraryMember L.library property o m))
        (args.map (Option.map f)))).subtrees) : ∃ v ∈ T.subtrees, Occurs L.library B v v' := by
    rcases mem_libraryCall below with other | ⟨c', arg, inside⟩
    · exact top other
    · obtain ⟨c, mem, rfl⟩ := some_mem_map.mp arg
      obtain ⟨v, deep, occurs⟩ := ih c mem inside
      exact ⟨v, mem_subtrees_of_child (child c mem) deep, occurs⟩
  induction h generalizing v' with
  | literal kind =>
    rcases mem_libraryCall below with other | ⟨c, arg, inside⟩
    · exact top other
    · cases List.mem_singleton.mp arg
      cases List.mem_singleton.mp inside
      exact top nofun
  | constructor f kind _ _ _ _ ih | redirect f kind _ _ _ _ _ _ ih =>
    exact called (fun c => child_of_arg kind) (fun c mem => ih c mem) below
  | operation f op _ _ _ _ ih =>
    exact called (fun c => child_of_operation op) (fun c mem => ih c mem) below
  | @compound T op target value copy method property o m call f kind _ _ _ _ _ copied _ ih =>
    have part {c v' : Tree Nat Name} (mem : some c ∈ [target, value]) (inside : v' ∈ (f c).subtrees) :
        ∃ v ∈ T.subtrees, Occurs L.library B v v' := by
      obtain ⟨v, deep, occurs⟩ := ih c mem inside
      exact ⟨v, mem_subtrees_of_child (child_of_assign kind mem) deep, occurs⟩
    rcases mem_loweredAssign below with other | ⟨c, mem, inside⟩ | ⟨D, rfl, inside⟩
    · exact top other
    · exact part mem inside
    · obtain ⟨t, rfl, same⟩ := exists_copied copied
      obtain ⟨v₀, deep, alike⟩ := exists_relabelled same inside
      obtain ⟨v, source, occurs⟩ := part List.mem_cons_self deep
      exact ⟨v, source, occurs.trans fun name => ident_of_relabel alike⟩
  | @keep T f _ _ _ _ ih =>
    rcases mem_subtrees_iff.mp below with rfl | ⟨c, child, inside⟩
    · exact ⟨T, T.self_mem_subtrees, fun name ident _ => ⟨ident_of_mapChildren ident, rfl⟩⟩
    · rw [children_mapChildren] at child
      obtain ⟨c, mem, rfl⟩ := List.mem_map.mp child
      obtain ⟨v, deep, occurs⟩ := ih c mem inside
      exact ⟨v, mem_subtrees_of_child mem deep, occurs⟩

/-- What is below a parameter of the lowered tree was below one of the tree. -/
theorem Lowers.inParams (h : Lowers L w start R B u u') (targets : u.FlatTargets)
    (inside : u'.InParams v') : ∃ v, u.InParams v ∧ Occurs L.library B v v' := by
  have called {T : Tree Nat Name} {property : Name} {o m x : Nat} {args : List (Part Nat Name)}
      {f : Tree Nat Name → Tree Nat Name} (child : ∀ c, some c ∈ args → c ∈ T.children)
      (ih : ∀ c, some c ∈ args → (f c).InParams v' → ∃ v, c.InParams v ∧ Occurs L.library B v v')
      (inside : (node x (.call (some (libraryMember L.library property o m))
        (args.map (Option.map f)))).InParams v') : ∃ v, T.InParams v ∧ Occurs L.library B v v' := by
    obtain ⟨c', arg, inside⟩ := inParams_libraryCall inside
    obtain ⟨c, mem, rfl⟩ := some_mem_map.mp arg
    obtain ⟨v, deep, occurs⟩ := ih c mem inside
    exact ⟨v, deep.of_child (child c mem), occurs⟩
  have below {T c : Tree Nat Name} (targets : T.FlatTargets) (child : c ∈ T.children) :
      c.FlatTargets := targets.subtree (child_mem_subtrees child)
  induction h with
  | literal kind =>
    obtain ⟨c, arg, inside⟩ := inParams_libraryCall inside
    cases List.mem_singleton.mp arg
    rcases inParams_iff.mp inside with ⟨p, param, -⟩ | ⟨c, child, -⟩
    · cases param
    · cases child
  | constructor f kind _ _ _ _ ih | redirect f kind _ _ _ _ _ _ ih =>
    exact called (fun c => child_of_arg kind)
      (fun c mem => ih c mem (below targets (child_of_arg kind mem))) inside
  | operation f op _ _ _ _ ih =>
    exact called (fun c => child_of_operation op)
      (fun c mem => ih c mem (below targets (child_of_operation op mem))) inside
  | @compound T op target value copy method property o m call f kind found _ _ _ each copied _ ih =>
    rcases inParams_loweredAssign inside with ⟨c, mem, deeper⟩ | ⟨D, rfl, deeper⟩
    · have child := child_of_assign kind mem
      obtain ⟨v, deep, occurs⟩ := ih c mem (below targets child) deeper
      exact ⟨v, deep.of_child child, occurs⟩
    · -- The copy has no parameters in it, for the target has none.
      obtain ⟨t, rfl, same⟩ := exists_copied copied
      have flat := (each t List.mem_cons_self).flat (targets.target kind found rfl)
      exact ((flat.of_relabel same).not_inParams deeper).elim
  | @keep T f _ _ _ each ih =>
    rcases inParams_iff.mp inside with ⟨p', param, deep⟩ | ⟨c, child, inside⟩
    · rw [params_mapChildren] at param
      obtain ⟨p, mem, rfl⟩ := some_mem_map.mp param
      obtain ⟨v, source, occurs⟩ := (each p (child_of_param mem)).exists_source deep
      exact ⟨v, inParams_iff.mpr (.inl ⟨p, mem, source⟩), occurs⟩
    · rw [children_mapChildren] at child
      obtain ⟨c, mem, rfl⟩ := List.mem_map.mp child
      obtain ⟨v, deep, occurs⟩ := ih c mem (below targets mem) inside
      exact ⟨v, deep.of_child mem, occurs⟩

end Tree

end BigLower
