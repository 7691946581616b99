import BigLower.Proofs.Scoping
import BigLower.Proofs.Units

/-! # The innermost declaration

Which nodes enclose an identifier and open a scope can be said without a walk: they
are the programs, functions and blocks that it is below of, where a block that is the
body of a function does not count. An identifier refers to the binding of its name in
the innermost of those that declare it, unless it stands below a parameter. There
nothing is resolved.
-/

namespace BigLower

namespace Tree

variable {T u v c : Tree Nat Name}

def params (T : Tree Nat Name) : List (Part Nat Name) :=
  match T.kind with
  | .function _ params _ | .arrow params _ => params
  | _ => []

def body (T : Tree Nat Name) : Part Nat Name :=
  match T.kind with
  | .function _ _ body | .arrow _ body => body
  | _ => none

def isBlock (T : Tree Nat Name) : Bool :=
  match T.kind with
  | .block _ => true
  | _ => false

/-! ## Parts of a node -/

theorem child_of_param (mem : some c ∈ T.params) : c ∈ T.children := by
  unfold params at mem
  cases own : T.kind with
  | function _ params body | arrow params body =>
    rw [own] at mem
    exact child_of_list (by simp [own, Kind.parts]) mem
  | _ => simp [own] at mem

theorem child_of_body (body : T.body = some c) : c ∈ T.children := by
  unfold Tree.body at body
  cases own : T.kind with
  | function _ params body' | arrow params body' =>
    rw [own] at body
    cases body
    simp [mem_children_iff, own, Kind.slots, Kind.parts]
  | _ => simp [own] at body

theorem visited_of_body (body : T.body = some c) :
    T.visited = if c.isBlock then c.children else [c] := by
  have block : statements? (some c) = match c.kind with | .block list => some list | _ => none := by
    obtain ⟨x, k⟩ := c
    cases k <;> rfl
  unfold Tree.body at body
  unfold visited isBlock
  cases own : T.kind with
  | function _ params body' | arrow params body' =>
    rw [own] at body
    cases body
    dsimp only
    rw [block]
    cases inner : c.kind <;> simp [children, inner, Kind.slots, Kind.parts]
  | _ => simp [own] at body

/-- A child is a parameter, or the body, or is visited. -/
theorem child_cases (child : c ∈ T.children) :
    some c ∈ T.params ∨ T.body = some c ∨ c ∈ T.visited := by
  unfold params Tree.body visited
  cases own : T.kind with
  | function _ params body | arrow params body =>
    rw [mem_children_iff, own] at child
    have cases : some c ∈ params ∨ some c = body := by
      simpa [Kind.slots, Kind.parts] using child
    rcases cases with mem | same
    · exact .inl mem
    · exact .inr (.inl same.symm)
  | _ => exact .inr (.inr child)

theorem subtree_cases (below : v ∈ u.subtrees) : v = u ∨ (∃ p, some p ∈ u.params ∧ v ∈ p.subtrees) ∨
    (u.body = some v ∧ v.isBlock = true) ∨ ∃ c ∈ u.visited, v ∈ c.subtrees := by
  rcases mem_subtrees_iff.mp below with same | ⟨c, child, inside⟩
  · exact .inl same
  · rcases child_cases child with param | body | visited
    · exact .inr (.inl ⟨c, param, inside⟩)
    · have shown := visited_of_body body
      by_cases block : c.isBlock = true
      · rw [if_pos block] at shown
        rcases mem_subtrees_iff.mp inside with rfl | ⟨d, child', inside⟩
        · exact .inr (.inr (.inl ⟨body, block⟩))
        · exact .inr (.inr (.inr ⟨d, shown ▸ child', inside⟩))
      · rw [if_neg block] at shown
        exact .inr (.inr (.inr ⟨c, shown ▸ List.mem_cons_self, inside⟩))
    · exact .inr (.inr (.inr ⟨c, visited, inside⟩))

theorem children_of_param {p : Tree Nat Name} (param : some p ∈ T.params) :
    T.children = T.params.filterMap id ++ T.body.toList := by
  unfold params at param
  unfold children params Tree.body
  cases own : T.kind with
  | function _ params body | arrow params body =>
    cases body <;> simp [Kind.slots, Kind.parts]
  | _ => simp [own] at param

theorem param_apart (distinct : u.ids.Nodup) {p : Tree Nat Name} (param : some p ∈ u.params)
    (visited : c ∈ u.visited) (left : v ∈ p.subtrees) : v ∉ c.subtrees := by
  intro right
  have once := nodup_children distinct
  rw [children_of_param param, List.flatMap_append, List.nodup_append'] at once
  refine once.2.2 (List.mem_flatMap.mpr ⟨p, by simpa using param, List.mem_map_of_mem left⟩) ?_
  cases body : u.body with
  | none =>
    have empty : u.visited = [] := by
      unfold params at param
      unfold Tree.body at body
      unfold Tree.visited
      cases own : u.kind with
      | function _ params b | arrow params b =>
        rw [own] at body
        cases body
        rfl
      | _ => simp [own] at param
    rw [empty] at visited
    cases visited
  | some b =>
    have shown := visited_of_body body
    have inside : v ∈ b.subtrees := by
      by_cases block : b.isBlock = true
      · rw [shown, if_pos block] at visited
        exact mem_subtrees_of_child visited right
      · rw [shown, if_neg block] at visited
        cases List.mem_singleton.mp visited
        exact right
    exact List.mem_flatMap.mpr ⟨b, by simp, List.mem_map_of_mem inside⟩

theorem visited_unique (distinct : u.ids.Nodup) {d : Tree Nat Name} (first : c ∈ u.visited)
    (second : d ∈ u.visited) (left : v ∈ c.subtrees) (right : v ∈ d.subtrees) : c = d := by
  by_contra different
  have apart := (List.nodup_flatMap.mp (nodup_visited distinct).1).2
  have symm : Std.Symm (Function.onFun List.Disjoint (@ids Nat Name)) := ⟨fun _ _ h => h.symm⟩
  exact apart.forall first second different (List.mem_map_of_mem left) (List.mem_map_of_mem right)

theorem height_le_of_subtree (below : v ∈ u.subtrees) : v.height ≤ u.height := by
  induction u using Tree.induction with
  | step u ih =>
    rcases mem_subtrees_iff.mp below with rfl | ⟨c, child, inside⟩
    · exact Nat.le_refl _
    · have := height_lt child
      have := ih c child inside
      omega

/-! ## Where a walk comes to -/

def InParams (T v : Tree Nat Name) : Prop :=
  ∃ f ∈ T.subtrees, ∃ p, some p ∈ f.params ∧ v ∈ p.subtrees

def IsBody (T v : Tree Nat Name) : Prop :=
  ∃ f ∈ T.subtrees, f.body = some v

variable {outer inner : List (Tree Nat Name)}

/-- A walk comes to all that is below no parameter, but for the blocks that are bodies. -/
theorem exists_leads (below : v ∈ u.subtrees) (outside : ¬ u.InParams v)
    (other : v.isBlock = true → ¬ u.IsBody v) : ∃ inner, Leads outer u inner v := by
  induction u using induction_visited generalizing outer with
  | step u ih =>
    rcases subtree_cases below with rfl | ⟨p, param, inside⟩ | ⟨body, block⟩ | ⟨c, visited, inside⟩
    · exact ⟨outer, .here outer v⟩
    · exact (outside ⟨u, u.self_mem_subtrees, p, param, inside⟩).elim
    · exact (other block ⟨u, u.self_mem_subtrees, body⟩).elim
    · have deeper {f : Tree Nat Name} (deep : f ∈ c.subtrees) : f ∈ u.subtrees :=
        subtrees_trans (subtree_of_visited visited) deep
      obtain ⟨inner, leads⟩ := @ih c visited (u.around outer) inside
        (fun ⟨f, deep, rest⟩ => outside ⟨f, deeper deep, rest⟩)
        (fun block ⟨f, deep, body⟩ => other block ⟨f, deeper deep, body⟩)
      exact ⟨inner, .inside visited leads⟩

/-- Whatever is above a place that a walk comes to, is on the way. -/
theorem above_cases (distinct : u.ids.Nodup) (visited : c ∈ u.visited) (inside : v ∈ c.subtrees)
    {f : Tree Nat Name} (below : f ∈ u.subtrees) (above : v ∈ f.subtrees) :
    f = u ∨ (u.body = some f ∧ f.isBlock = true) ∨ f ∈ c.subtrees := by
  rcases subtree_cases below with same | ⟨p, param, deep⟩ | body | ⟨d, visited', deep⟩
  · exact .inl same
  · exact (param_apart distinct param visited (subtrees_trans deep above) inside).elim
  · exact .inr (.inl body)
  · cases visited_unique distinct visited visited' inside (subtrees_trans deep above)
    exact .inr (.inr deep)

theorem Leads.not_inParams (leads : Leads outer u inner v) (distinct : u.ids.Nodup) :
    ¬ u.InParams v := by
  induction leads with
  | here outer u =>
    intro inParams
    obtain ⟨f, below, p, param, inside⟩ := inParams
    have := height_lt (child_of_param param)
    have := height_le_of_subtree below
    have := height_le_of_subtree inside
    omega
  | @inside outer inner u c v visited leads ih =>
    intro inParams
    obtain ⟨f, below, p, param, inside⟩ := inParams
    have above : v ∈ f.subtrees := mem_subtrees_of_child (child_of_param param) inside
    rcases above_cases distinct visited leads.subtree below above with rfl | ⟨-, block⟩ | deep
    · exact param_apart distinct param visited inside leads.subtree
    · unfold params at param
      unfold isBlock at block
      cases own : f.kind <;> simp_all
    · exact ih (nodup_subtree distinct (subtree_of_visited visited)) ⟨f, deep, p, param, inside⟩

/-- A walk does not come to a block that is a body. -/
theorem Leads.not_body (leads : Leads outer u inner v) (distinct : u.ids.Nodup)
    (block : v.isBlock = true) : ¬ u.IsBody v := by
  induction leads with
  | here outer u =>
    intro isBody
    obtain ⟨f, below, body⟩ := isBody
    have := height_lt (child_of_body body)
    have := height_le_of_subtree below
    omega
  | @inside outer inner u c v visited leads ih =>
    intro isBody
    obtain ⟨f, below, body⟩ := isBody
    have above : v ∈ f.subtrees := child_mem_subtrees (child_of_body body)
    rcases above_cases distinct visited leads.subtree below above with rfl | ⟨-, block'⟩ | deep
    · rw [visited_of_body body, if_pos block] at visited
      have := height_lt visited
      have := height_le_of_subtree leads.subtree
      omega
    · unfold Tree.body at body
      unfold isBlock at block'
      cases own : f.kind <;> simp_all
    · exact ih (nodup_subtree distinct (subtree_of_visited visited)) block ⟨f, deep, body⟩

/-- The nodes with scopes that a walk goes through are those above its end, the inner ones first. -/
theorem Leads.around (leads : Leads outer u inner v) (distinct : u.ids.Nodup) (leaf : v.opens = false) :
    ∃ path, inner = path ++ outer ∧ path.Pairwise (fun a b => a ∈ b.subtrees) ∧
      (∀ o ∈ path, v ∈ o.subtrees ∧ o.opens = true ∧ ∃ between, Leads outer u between o) ∧
      ∀ o ∈ u.subtrees, v ∈ o.subtrees → o.opens = true → (o.isBlock = true → ¬ u.IsBody o) →
        o ∈ path := by
  induction leads with
  | here outer u =>
    refine ⟨[], rfl, .nil, nofun, fun o below above opener _ => ?_⟩
    rcases mem_subtrees_iff.mp below with rfl | ⟨c, child, inside⟩
    · rw [leaf] at opener
      cases opener
    · have := height_lt child
      have := height_le_of_subtree inside
      have := height_le_of_subtree above
      omega
  | @inside outer inner u c v visited leads ih =>
    have inside := leads.subtree
    obtain ⟨path, rfl, nested, sound, complete⟩ :=
      ih (nodup_subtree distinct (subtree_of_visited visited)) leaf
    have deep {o : Tree Nat Name} (below : o ∈ u.subtrees) (above : v ∈ o.subtrees)
        (opener : o.opens = true) (named : o.isBlock = true → ¬ u.IsBody o) (other : o ≠ u) :
        o ∈ path := by
      rcases above_cases distinct visited inside below above with same | ⟨body, block⟩ | deep
      · exact (other same).elim
      · exact (named block ⟨u, u.self_mem_subtrees, body⟩).elim
      · refine complete o deep above opener fun block isBody => ?_
        obtain ⟨f, inner, body⟩ := isBody
        exact named block ⟨f, subtrees_trans (subtree_of_visited visited) inner, body⟩
    have lift {o : Tree Nat Name} (mem : o ∈ path) :
        v ∈ o.subtrees ∧ o.opens = true ∧ ∃ between, Leads outer u between o := by
      obtain ⟨above, opener, between, way⟩ := sound o mem
      exact ⟨above, opener, between, .inside visited way⟩
    by_cases opener : u.opens = true
    · refine ⟨path ++ [u], by simp [Tree.around, opener], ?_, ?_, ?_⟩
      · refine List.pairwise_append.mpr ⟨nested, List.pairwise_singleton _ _, fun a mem b here => ?_⟩
        cases List.mem_singleton.mp here
        obtain ⟨-, -, between, way⟩ := lift mem
        exact way.subtree
      · intro o mem
        rcases List.mem_append.mp mem with mem | mem
        · exact lift mem
        · cases List.mem_singleton.mp mem
          exact ⟨subtrees_trans (subtree_of_visited visited) inside, opener, outer, .here outer u⟩
      · intro o below above opener' named
        by_cases same : o = u
        · exact List.mem_append_right _ (List.mem_singleton.mpr same)
        · exact List.mem_append_left _ (deep below above opener' named same)
    · refine ⟨path, by simp [Tree.around, opener], nested, fun o mem => lift mem, ?_⟩
      intro o below above opener' named
      exact deep below above opener' named fun same => opener (same ▸ opener')

/-! ## Openers -/

/-- A node that opens a scope: a program, a function, or a block that is not the body of a function. -/
def IsOpener (T o : Tree Nat Name) : Prop :=
  o ∈ T.subtrees ∧ o.opens = true ∧ (o.isBlock = true → ¬ T.IsBody o)

def Declares (o : Tree Nat Name) (name : Name) : Prop :=
  ∃ d ∈ o.declared, d.name = name

/-- The innermost node that encloses a place, opens a scope and declares a name there. -/
structure Innermost (T v : Tree Nat Name) (name : Name) (o : Tree Nat Name) : Prop where
  opener : T.IsOpener o
  encloses : v ∈ o.subtrees
  declares : o.Declares name
  inner : ∀ o', T.IsOpener o' → v ∈ o'.subtrees → o'.Declares name → o ∈ o'.subtrees

theorem declares_iff {o : Tree Nat Name} {name : Name} :
    o.Declares name ↔ Scopes.firstOf o.declared name ≠ none := by
  unfold Declares Scopes.firstOf
  rw [ne_eq, List.find?_eq_none]
  simp

end Tree

theorem Scopes.Shows.declares_iff {t : Scopes} {i : Nat} {o : Tree Nat Name}
    (h : t.Shows i o.declared) (name : Name) : o.Declares name ↔ t.binding? i name ≠ none := by
  have here := h name
  rw [Tree.declares_iff]
  cases first : Scopes.firstOf o.declared name with
  | none =>
    rw [first] at here
    simp [here]
  | some d =>
    rw [first] at here
    obtain ⟨b, found, -⟩ := here
    simp [found]

/-- The first of some nested nodes that has an answer is the innermost that has one. -/
theorem findSome?_nested {β : Type} {path : List (Tree Nat Name)} {f : Tree Nat Name → Option β}
    (nested : path.Pairwise fun a b => a ∈ b.subtrees) {b : β} (found : path.findSome? f = some b) :
    ∃ o ∈ path, f o = some b ∧ ∀ o' ∈ path, f o' ≠ none → o ∈ o'.subtrees := by
  induction path with
  | nil => cases found
  | cons a rest ih =>
    obtain ⟨first, later⟩ := List.pairwise_cons.mp nested
    rw [List.findSome?_cons] at found
    cases own : f a with
    | some b' =>
      rw [own] at found
      cases found
      refine ⟨a, List.mem_cons_self, own, fun o' mem _ => ?_⟩
      rcases List.mem_cons.mp mem with rfl | mem
      · exact o'.self_mem_subtrees
      · exact first o' mem
    | none =>
      rw [own] at found
      obtain ⟨o, mem, here, inner⟩ := ih later found
      refine ⟨o, List.mem_cons_of_mem a mem, here, fun o' mem' some => ?_⟩
      rcases List.mem_cons.mp mem' with rfl | mem'
      · exact (some own).elim
      · exact inner o' mem' some

/--
Names are scoped lexically: every node that opens a scope has a place for it, which
shows what the node declares, and an identifier refers to the binding of its name in
the innermost enclosing node that declares it. Below parameters nothing is resolved.
-/
structure LexicallyScoped (T : Tree Nat Name) (t : Scopes) (place : Nat → Nat) : Prop where
  shows : ∀ o, T.IsOpener o → ¬ T.InParams o → t.Shows (place o.tag) o.declared
  bound : ∀ v ∈ T.subtrees, ∀ name, v.kind = .ident name → ¬ T.InParams v →
    ((∃ b, t.bindingOf (some v.tag) = some b) ↔
      ∃ o, T.IsOpener o ∧ v ∈ o.subtrees ∧ o.Declares name)
  binding : ∀ v ∈ T.subtrees, ∀ name, v.kind = .ident name → ¬ T.InParams v →
    ∀ b, t.bindingOf (some v.tag) = some b ↔
      ∃ o, T.Innermost v name o ∧ t.binding? (place o.tag) name = some b
  unresolved : ∀ v ∈ T.subtrees, T.InParams v → t.bindingOf (some v.tag) = none

namespace Tree

variable {T u v : Tree Nat Name}

theorem eq_of_subtrees (left : u ∈ v.subtrees) (right : v ∈ u.subtrees) : u = v := by
  rcases mem_subtrees_iff.mp left with same | ⟨c, child, inside⟩
  · exact same
  · have := height_lt child
    have := height_le_of_subtree inside
    have := height_le_of_subtree right
    omega

/-- The openers around an identifier, innermost first, and its binding looked up along them. -/
theorem exists_openers {t : Scopes} {place : Nat → Nat} {name : Name}
    (distinct : T.ids.Nodup)
    (shows : ∀ inner v, Leads [] T inner v → ∀ o ∈ v.around inner, t.Shows (place o.tag) o.declared)
    (sees : ∀ inner v name, Leads [] T inner v → v.kind = .ident name →
      t.bindingOf (some v.tag) = inner.findSome? fun o => t.binding? (place o.tag) name)
    (below : v ∈ T.subtrees) (ident : v.kind = .ident name) (outside : ¬ T.InParams v) :
    ∃ path : List (Tree Nat Name), path.Pairwise (fun a b => a ∈ b.subtrees) ∧
      (∀ o, o ∈ path ↔ T.IsOpener o ∧ v ∈ o.subtrees) ∧
      (∀ o ∈ path, t.Shows (place o.tag) o.declared) ∧
      t.bindingOf (some v.tag) = path.findSome? fun o => t.binding? (place o.tag) name := by
  have leaf : v.opens = false := by simp [opens, ident]
  have other : v.isBlock = true → ¬ T.IsBody v := by simp [isBlock, ident]
  obtain ⟨inner, leads⟩ := @exists_leads T v [] below outside other
  obtain ⟨path, rfl, nested, sound, complete⟩ := leads.around distinct leaf
  rw [List.append_nil] at leads
  refine ⟨path, nested, fun o => ?_, fun o mem => ?_, sees path v name leads ident⟩
  · apply Iff.intro
    · intro mem
      obtain ⟨above, opener, between, way⟩ := sound o mem
      exact ⟨⟨way.subtree, opener, way.not_body distinct⟩, above⟩
    · intro encloses
      obtain ⟨⟨inside, opener, named⟩, above⟩ := encloses
      exact complete o inside above opener named
  · exact shows path v leads o (mem_around_of_mem v mem)

theorem lexicallyScoped {body : List (Part Nat Name)} (program : T.kind = .program body)
    (distinct : T.ids.Nodup) (top : T.ProgramsAtTop) :
    ∃ place, LexicallyScoped T T.scopesOf place := by
  obtain ⟨place, shows, sees, others⟩ := resolved_program program distinct top
  refine ⟨place, ?_, ?_, ?_, ?_⟩
  · intro o opener outside
    obtain ⟨below, opens, named⟩ := opener
    obtain ⟨inner, leads⟩ := @exists_leads T o [] below outside named
    exact shows inner o leads o (by simp [around, opens])
  · intro v below name ident outside
    obtain ⟨path, -, openers, declares, found⟩ :=
      exists_openers distinct shows sees below ident outside
    rw [found, ← Option.isSome_iff_exists, List.findSome?_isSome_iff]
    apply Iff.intro
    · intro bound
      obtain ⟨o, mem, bound⟩ := bound
      obtain ⟨opener, above⟩ := (openers o).mp mem
      refine ⟨o, opener, above, ((declares o mem).declares_iff name).mpr ?_⟩
      exact Option.isSome_iff_ne_none.mp bound
    · intro declared
      obtain ⟨o, opener, above, declared⟩ := declared
      have mem := (openers o).mpr ⟨opener, above⟩
      exact ⟨o, mem, Option.isSome_iff_ne_none.mpr (((declares o mem).declares_iff name).mp declared)⟩
  · intro v below name ident outside b
    obtain ⟨path, nested, openers, declares, found⟩ :=
      exists_openers distinct shows sees below ident outside
    have innermost {b' : Nat} (some : T.scopesOf.bindingOf (some v.tag) = some b') :
        ∃ o, T.Innermost v name o ∧ T.scopesOf.binding? (place o.tag) name = .some b' := by
      obtain ⟨o, mem, here, inner⟩ := findSome?_nested nested (found.symm.trans some)
      obtain ⟨opener, above⟩ := (openers o).mp mem
      refine ⟨o, ⟨opener, above, ((declares o mem).declares_iff name).mpr (by simp [here]), ?_⟩, here⟩
      intro o' opener' above' declared
      have mem' := (openers o').mpr ⟨opener', above'⟩
      exact inner o' mem' (((declares o' mem').declares_iff name).mp declared)
    apply Iff.intro innermost
    intro given
    obtain ⟨o, first, here⟩ := given
    have bound : T.scopesOf.bindingOf (some v.tag) ≠ none := by
      intro absent
      have mem := (openers o).mpr ⟨first.opener, first.encloses⟩
      have missing := List.findSome?_eq_none_iff.mp (found.symm.trans absent) o mem
      rw [here] at missing
      cases missing
    obtain ⟨b', some⟩ := Option.ne_none_iff_exists'.mp bound
    obtain ⟨o', first', here'⟩ := innermost some
    have same : o = o' := eq_of_subtrees
      (first.inner o' first'.opener first'.encloses first'.declares)
      (first'.inner o first.opener first.encloses first.declares)
    rw [some, ← here', ← here, same]
  · intro v below inParams
    apply others
    intro inner w name leads ident same
    have one := eq_of_tag_eq distinct leads.subtree below same
    exact leads.not_inParams distinct (one ▸ inParams)

end Tree

/--
The scopes of a program are lexical, with variables hoisted to the function around
them: an identifier that is not below a parameter has a binding if and only if a node
around it that opens a scope declares its name, and then it is the innermost one's.
-/
theorem Store.resolve_lexical {s : Store} {T : Tree Nat Name} (holds : s.Holds T)
    (distinct : T.ids.Nodup) (program : T.isProgram = true) (top : T.ProgramsAtTop)
    (entries : T.EntriesPresent) :
    ∃ t place, s.resolve (some T.tag) = .ok t ∧ LexicallyScoped T t place := by
  obtain ⟨body, program⟩ : ∃ body, T.kind = .program body := by
    unfold Tree.isProgram at program
    split at program
    · exact ⟨_, ‹_›⟩
    · cases program
  obtain ⟨place, lexical⟩ := Tree.lexicallyScoped program distinct top
  exact ⟨T.scopesOf, place, resolve_eq holds entries, lexical⟩

namespace Sample

/-- The store of `f(y); { var y; let x; x; } function f(p) { x; { let p; p; } p; var x; } let x;`. -/
def nestedStore : Store where
  nodes := #[
    ⟨.ident 3, ⟨0, 1⟩⟩, ⟨.ident 2, ⟨2, 3⟩⟩, ⟨.call (some 0) ⟨0, 1⟩, ⟨0, 4⟩⟩, ⟨.exprStmt (some 2), ⟨0, 5⟩⟩,
    ⟨.declarator 2 none, ⟨12, 13⟩⟩, ⟨.varDecl .var ⟨1, 1⟩, ⟨8, 14⟩⟩, ⟨.declarator 1 none, ⟨19, 20⟩⟩,
    ⟨.varDecl .let_ ⟨2, 1⟩, ⟨15, 21⟩⟩, ⟨.ident 1, ⟨22, 23⟩⟩, ⟨.exprStmt (some 8), ⟨22, 24⟩⟩,
    ⟨.block ⟨3, 3⟩, ⟨6, 26⟩⟩,
    ⟨.param 4, ⟨38, 39⟩⟩, ⟨.ident 1, ⟨43, 44⟩⟩, ⟨.exprStmt (some 12), ⟨43, 45⟩⟩,
    ⟨.declarator 4 none, ⟨52, 53⟩⟩, ⟨.varDecl .let_ ⟨6, 1⟩, ⟨48, 54⟩⟩, ⟨.ident 4, ⟨55, 56⟩⟩,
    ⟨.exprStmt (some 16), ⟨55, 57⟩⟩, ⟨.block ⟨7, 2⟩, ⟨46, 59⟩⟩, ⟨.ident 4, ⟨60, 61⟩⟩,
    ⟨.exprStmt (some 19), ⟨60, 62⟩⟩, ⟨.declarator 1 none, ⟨67, 68⟩⟩, ⟨.varDecl .var ⟨9, 1⟩, ⟨63, 69⟩⟩,
    ⟨.block ⟨10, 4⟩, ⟨41, 71⟩⟩, ⟨.function 3 ⟨14, 1⟩ (some 23), ⟨27, 71⟩⟩,
    ⟨.declarator 1 none, ⟨76, 77⟩⟩, ⟨.varDecl .let_ ⟨15, 1⟩, ⟨72, 78⟩⟩, ⟨.program ⟨16, 4⟩, ⟨0, 78⟩⟩]
  lists := #[some 1, some 4, some 6, some 5, some 7, some 9, some 14, some 15, some 17, some 21,
    some 13, some 18, some 20, some 22, some 11, some 25, some 3, some 10, some 24, some 26]

def nestedTree : Tree Nat Name :=
  match nestedStore.tree 27 with
  | .ok T => T
  | .error _ => .node 27 (.program [])

/-- The store of `let x; (x) => null;` with an identifier in the place of the parameter. -/
def parameterStore : Store where
  nodes := #[
    ⟨.declarator 1 none, ⟨4, 5⟩⟩, ⟨.varDecl .let_ ⟨0, 1⟩, ⟨0, 6⟩⟩, ⟨.ident 1, ⟨8, 9⟩⟩, ⟨.null, ⟨14, 18⟩⟩,
    ⟨.arrow ⟨1, 1⟩ (some 3), ⟨7, 18⟩⟩, ⟨.exprStmt (some 4), ⟨7, 19⟩⟩, ⟨.program ⟨2, 2⟩, ⟨0, 19⟩⟩]
  lists := #[some 0, some 2, some 1, some 5]

def parameterTree : Tree Nat Name :=
  .node 6 (.program [
    some (.node 1 (.varDecl .let_ [some (.node 0 (.declarator 1 none))])),
    some (.node 5 (.exprStmt (some (.node 4 (.arrow [some (.node 2 (.ident 1))]
      (some (.node 3 .null)))))))])

end Sample

/-- Names of the sample are used before they are declared, hoisted and shadowed. -/
theorem Store.resolve_lexical_sample :
    Sample.nestedStore.Holds Sample.nestedTree ∧ Sample.nestedTree.ids.Nodup ∧
    Sample.nestedTree.isProgram = true ∧ Sample.nestedTree.ProgramsAtTop ∧
    Sample.nestedTree.EntriesPresent ∧
    ∃ t place, Sample.nestedStore.resolve (some Sample.nestedTree.tag) = .ok t ∧
      LexicallyScoped Sample.nestedTree t place := by
  have holds : Sample.nestedStore.Holds Sample.nestedTree := by decide +kernel
  have distinct : Sample.nestedTree.ids.Nodup := by decide +kernel
  have top : Sample.nestedTree.ProgramsAtTop := by decide +kernel
  have entries : Sample.nestedTree.EntriesPresent := by decide +kernel
  exact ⟨holds, distinct, by decide +kernel, top, entries,
    resolve_lexical holds distinct (by decide +kernel) top entries⟩

example : (match Sample.nestedStore.resolve (some 27) with
    | .ok t => [0, 1, 8, 12, 16, 19].map fun x =>
      (t.bindingOf (some x)).bind fun b => t.bindings[b]?.bind fun entry => entry.declaredBy
    | .error _ => []) = [some 24, some 4, some 6, some 21, some 14, some 11] := by
  decide +kernel

/-- An identifier below a parameter has no binding, though the program declares its name. -/
theorem Store.resolve_lexical_parameter :
    ∃ t, Sample.parameterStore.Holds Sample.parameterTree ∧ Sample.parameterTree.ids.Nodup ∧
      Sample.parameterTree.isProgram = true ∧ Sample.parameterTree.ProgramsAtTop ∧
      Sample.parameterTree.EntriesPresent ∧
      Sample.parameterStore.resolve (some Sample.parameterTree.tag) = .ok t ∧
      ¬ ∀ v ∈ Sample.parameterTree.subtrees, ∀ name, v.kind = .ident name →
        ((∃ b, t.bindingOf (some v.tag) = some b) ↔
          ∃ o, Sample.parameterTree.IsOpener o ∧ v ∈ o.subtrees ∧ o.Declares name) := by
  have holds : Sample.parameterStore.Holds Sample.parameterTree := by decide +kernel
  have entries : Sample.parameterTree.EntriesPresent := by decide +kernel
  have ran := resolve_eq holds entries
  refine ⟨_, holds, by decide +kernel, by decide, by decide +kernel, entries, ran, fun lexical => ?_⟩
  have below : .node 2 (.ident 1) ∈ Sample.parameterTree.subtrees := List.mem_of_getElem? (i := 5) rfl
  have absent : (match Sample.parameterStore.resolve (some 6) with
      | .ok t => decide (t.bindingOf (some 2) = none)
      | .error _ => false) = true := by
    decide +kernel
  rw [show Sample.parameterStore.resolve (some 6) = _ from ran] at absent
  have unbound := of_decide_eq_true absent
  obtain ⟨b, bound⟩ := (lexical _ below 1 rfl).mpr ⟨Sample.parameterTree,
    ⟨Tree.self_mem_subtrees _, rfl, nofun⟩, below, ⟨_, List.mem_cons_self, rfl⟩⟩
  exact nomatch unbound.symm.trans bound

end BigLower
