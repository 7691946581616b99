import BigLower.Proofs.Lexical
import BigLower.Proofs.Rooted
import BigLower.Proofs.ScopeTables
import Mathlib.Data.List.Flatten

/-! # Each node declares at most once

In a tree without repetitions no node is declared twice: `var` variables are
declared by the innermost program or function around them, other names by the list
of statements they are in, and parameters by their function. So the node that first
declared a binding stays tied to it.
-/

namespace BigLower

/-! ## Nodes that declare -/

namespace Scopes

variable {t t₁ t' : Scopes}

def Mapped (t : Scopes) : Prop :=
  ∀ (b : Nat) entry, t.bindings[b]? = some entry → t.declaredBy (some entry.declaredBy) = some b

/-- Only the given nodes were declared; if each of them is new then nothing is untied. -/
structure DeclaresAt (nodes : List Nat) (t t' : Scopes) : Prop where
  kept : ∀ x, x ∉ nodes → t'.declaredBy (some x) = t.declaredBy (some x)
  mapped : t.Mapped → nodes.Nodup → (∀ x ∈ nodes, t.declaredBy (some x) = none) → t'.Mapped

namespace DeclaresAt

theorem of_eq (bindings : t'.bindings = t.bindings) (declarations : t'.declarations = t.declarations) :
    DeclaresAt [] t t' := by
  have same (slot : Slot) : t'.declaredBy slot = t.declaredBy slot := by
    unfold Scopes.declaredBy
    rw [declarations]
  refine ⟨fun x _ => same (some x), fun mapped _ _ b entry found => ?_⟩
  rw [same]
  exact mapped b entry (bindings ▸ found)

theorem append {nodes nodes' : List Nat} (first : DeclaresAt nodes t t₁)
    (second : DeclaresAt nodes' t₁ t') : DeclaresAt (nodes ++ nodes') t t' := by
  refine ⟨fun x other => ?_, fun mapped once new => ?_⟩
  · rw [List.mem_append, not_or] at other
    exact (second.kept x other.2).trans (first.kept x other.1)
  · obtain ⟨once, once', apart⟩ := List.nodup_append'.mp once
    refine second.mapped (first.mapped mapped once fun x mem => new x (List.mem_append_left _ mem))
      once' fun x mem => ?_
    rw [first.kept x fun inside => apart inside mem]
    exact new x (List.mem_append_right _ mem)

end DeclaresAt

theorem declaresAt_declare (t : Scopes) (scope : Nat) (d : Declaration) :
    DeclaresAt [d.node] t (t.declare scope d) := by
  refine ⟨fun x other => ?_, fun mapped _ new b entry found => ?_⟩
  · rw [declaredBy_declare, if_neg (by simpa using other)]
  · have old (found : t.bindings[b]? = some entry) :
        (t.declare scope d).declaredBy (some entry.declaredBy) = some b := by
      have tied := mapped b entry found
      have other : some entry.declaredBy ≠ some d.node := by
        intro same
        rw [same, new d.node List.mem_cons_self] at tied
        cases tied
      rw [declaredBy_declare, if_neg other]
      exact tied
    cases known : t.binding? scope d.name with
    | some b' =>
      rw [declare_of_some known] at found
      exact old found
    | none =>
      rw [bindings_declare known] at found
      split at found
      · cases found
        rw [declaredBy_declare, if_pos rfl, known]
        simp [*]
      · exact old found

theorem declaresAt_declareAll (t : Scopes) (scope : Nat) (ds : List Declaration) :
    DeclaresAt (ds.map Declaration.node) t (t.declareAll scope ds.toArray) := by
  unfold declareAll
  rw [← Array.foldl_toList]
  induction ds generalizing t with
  | nil => exact .of_eq rfl rfl
  | cons d rest ih => exact (declaresAt_declare t scope d).append (ih _)

theorem declaresAt_declareStatements (t : Scopes) (scope : Nat) (list : List (Tree.Part Nat Name)) :
    DeclaresAt ((Tree.hoistedList list ++ Tree.lexicals list).map Declaration.node) t
      (t.declareStatements scope list) := by
  rw [List.map_append]
  exact (declaresAt_declareAll ..).append (declaresAt_declareAll ..)

end Scopes

namespace Tree

variable {T c : Tree Nat Name} {list : List (Part Nat Name)} {x : Nat}

theorem declaresAt_enter (T : Tree Nat Name) (scope : Nat) (t : Scopes) :
    Scopes.DeclaresAt (T.declared.map Declaration.node) t (T.enter scope t).2 := by
  have opened (kind : ScopeKind) (ds : List Declaration) : Scopes.DeclaresAt (ds.map Declaration.node) t
      ((t.openScope kind (some scope)).2.declareAll t.scopes.size ds.toArray) := by
    have first : Scopes.DeclaresAt [] t (t.openScope kind (some scope)).2 := .of_eq rfl rfl
    exact first.append (Scopes.declaresAt_declareAll ..)
  unfold declared enter
  cases T.kind with
  | program body => exact Scopes.declaresAt_declareStatements ..
  | block body => exact opened .block _
  | function _ params body | arrow params body =>
    have first := opened .function (parameters params)
    dsimp only
    cases statements? body with
    | none =>
      rw [List.append_nil]
      exact first
    | some statements =>
      rw [List.map_append]
      exact first.append (Scopes.declaresAt_declareStatements ..)
  | _ => exact .of_eq rfl rfl

/-- The nodes that are declared on behalf of a statement by the lists of statements around it. -/
def exposed (T : Tree Nat Name) : List Nat :=
  (T.hoisted ++ lexicalOf (some T)).map Declaration.node

def innerIds (T : Tree Nat Name) : List Nat :=
  T.children.flatMap ids

theorem mem_ids_of_inner (mem : x ∈ T.innerIds) : x ∈ T.ids := by
  obtain ⟨c, child, inside⟩ := List.mem_flatMap.mp mem
  exact mem_ids_of_child child inside

theorem tag_not_mem_inner (distinct : T.ids.Nodup) : T.tag ∉ T.innerIds :=
  tag_not_mem_below distinct

/-! ### Trees that share nothing -/

section Apart

variable {trees : List (Tree Nat Name)} (distinct : (trees.flatMap ids).Nodup)

include distinct

theorem eq_of_mem_ids {d : Tree Nat Name} (first : c ∈ trees) (second : d ∈ trees) (left : x ∈ c.ids)
    (right : x ∈ d.ids) : c = d := by
  by_contra different
  have apart := (List.nodup_flatMap.mp distinct).2
  have symm : Std.Symm (Function.onFun List.Disjoint (@ids Nat Name)) := ⟨fun _ _ h => h.symm⟩
  exact apart.forall first second different left right

theorem nodup_flatMap_of_ids {f : Tree Nat Name → List Nat} (each : ∀ c ∈ trees, (f c).Nodup)
    (inside : ∀ c ∈ trees, ∀ x ∈ f c, x ∈ c.ids) : (trees.flatMap f).Nodup := by
  have apart := (List.nodup_flatMap.mp distinct).2
  refine List.nodup_flatMap.mpr ⟨each, apart.imp_of_mem fun hc hd disjoint x left right => ?_⟩
  exact disjoint (inside _ hc x left) (inside _ hd x right)

theorem nodup_tags : (trees.map tag).Nodup := by
  rw [List.map_eq_flatMap]
  refine nodup_flatMap_of_ids distinct (fun c _ => List.nodup_singleton _) fun c _ x mem => ?_
  cases List.mem_singleton.mp mem
  exact c.tag_mem_ids

end Apart

/-! ### What entries declare -/

/-- If an entry declares nothing but itself then a list declares entries, in order. -/
theorem nodes_sublist {f : Part Nat Name → List Declaration} (gap : f none = [])
    (own : ∀ c, ((f (some c)).map Declaration.node).Sublist [c.tag]) (list : List (Part Nat Name)) :
    ((list.flatMap f).map Declaration.node).Sublist ((list.filterMap id).map tag) := by
  induction list with
  | nil => exact .slnil
  | cons part rest ih =>
    cases part with
    | none => simpa [gap] using ih
    | some c =>
      rw [List.flatMap_cons, List.map_append]
      exact (own c).append ih

theorem declarators_sublist (kind : BindingKind) (list : List (Part Nat Name)) :
    ((declarators kind list).map Declaration.node).Sublist ((list.filterMap id).map tag) := by
  refine nodes_sublist rfl (fun c => ?_) list
  obtain ⟨x, k⟩ := c
  cases k <;> simp [declaratorOf, tag]

theorem parameters_sublist (list : List (Part Nat Name)) :
    ((parameters list).map Declaration.node).Sublist ((list.filterMap id).map tag) := by
  refine nodes_sublist rfl (fun c => ?_) list
  obtain ⟨x, k⟩ := c
  cases k <;> simp [parameterOf, tag]

theorem nodes_flatMap {f : Part Nat Name → List Declaration} (gap : f none = [])
    (list : List (Part Nat Name)) : (list.flatMap f).map Declaration.node =
      (list.filterMap id).flatMap fun c => (f (some c)).map Declaration.node := by
  induction list with
  | nil => rfl
  | cons part rest ih =>
    cases part with
    | none => simpa [gap] using ih
    | some c =>
      rw [List.flatMap_cons, List.map_append, ih]
      rfl

/-- The nodes of the `var` variables are below the top, each once. -/
theorem nodes_hoisted (distinct : T.ids.Nodup) :
    (T.hoisted.map Declaration.node).Nodup ∧ ∀ x ∈ T.hoisted.map Declaration.node, x ∈ T.innerIds := by
  induction T using Tree.induction with
  | step T ih =>
    have once := nodup_children distinct
    -- What goes through a block or a conditional comes from its children.
    have through (list : List (Part Nat Name)) (sub : (list.filterMap id).Sublist T.children) :
        ((list.flatMap hoistedOf).map Declaration.node).Nodup ∧
          ∀ x ∈ (list.flatMap hoistedOf).map Declaration.node, x ∈ T.innerIds := by
      have each {c : Tree Nat Name} (mem : c ∈ list.filterMap id) :=
        ih c (sub.subset mem) (nodup_child distinct (sub.subset mem))
      rw [nodes_flatMap rfl]
      refine ⟨nodup_flatMap_of_ids (once.sublist (sub.flatMap ids)) (fun c mem => (each mem).1)
        fun c mem x inside => mem_ids_of_inner ((each mem).2 x inside), fun x mem => ?_⟩
      obtain ⟨c, mem, inside⟩ := List.mem_flatMap.mp mem
      exact List.mem_flatMap.mpr ⟨c, sub.subset mem, mem_ids_of_inner ((each mem).2 x inside)⟩
    obtain ⟨x, k⟩ := T
    cases k with
    | varDecl keyword list =>
      cases keyword with
      | var =>
        have sub := declarators_sublist .var list
        have children : (Tree.node x (.varDecl .var list)).children = list.filterMap id := by
          simp [children, Tree.kind, Kind.slots, Kind.parts]
        rw [children] at once
        refine ⟨(nodup_tags once).sublist (by rw [hoisted]; exact sub), fun y mem => ?_⟩
        rw [hoisted] at mem
        obtain ⟨c, child, rfl⟩ := List.mem_map.mp (sub.subset mem)
        exact List.mem_flatMap.mpr ⟨c, children ▸ child, c.tag_mem_ids⟩
      | _ => simp [hoisted]
    | block list =>
      rw [hoisted, hoistedList_eq]
      exact through list (by simp [children, Tree.kind, Kind.slots, Kind.parts])
    | cond test yes no =>
      have both : Tree.hoisted (.node x (.cond test yes no)) = [yes, no].flatMap hoistedOf := by
        simp [hoisted]
      rw [both]
      refine through [yes, no] ?_
      have children : (Tree.node x (.cond test yes no)).children = [test, yes, no].filterMap id := by
        simp [children, Tree.kind, Kind.slots, Kind.parts]
      rw [children]
      exact (List.sublist_cons_self test [yes, no]).filterMap id
    | _ => simp [hoisted]

theorem exposed_varDecl {keyword : DeclKeyword} (own : T.kind = .varDecl keyword list) :
    T.exposed.Sublist (T.children.map tag) := by
  have children : T.children = list.filterMap id := by
    simp [children, own, Kind.slots, Kind.parts]
  rw [children]
  obtain ⟨x, k⟩ := T
  cases own
  cases keyword with
  | var => simpa [exposed, hoisted, lexicalOf, DeclKeyword.isLexical] using declarators_sublist .var list
  | let_ => simpa [exposed, hoisted, lexicalOf, DeclKeyword.isLexical] using declarators_sublist _ list
  | const => simpa [exposed, hoisted, lexicalOf, DeclKeyword.isLexical] using declarators_sublist _ list

theorem exposed_eq_hoisted (plain : lexicalOf (some T) = []) :
    T.exposed = T.hoisted.map Declaration.node := by
  rw [exposed, plain, List.append_nil]

theorem nodup_exposed (distinct : T.ids.Nodup) : T.exposed.Nodup := by
  have hoisted := (nodes_hoisted distinct).1
  cases own : T.kind with
  | varDecl keyword list => exact (nodup_tags (nodup_children distinct)).sublist (exposed_varDecl own)
  | function name params body | importDefault name source =>
    obtain ⟨x, k⟩ := T
    cases own
    simp [exposed, Tree.hoisted, lexicalOf]
  | _ =>
    rwa [exposed_eq_hoisted (by obtain ⟨x, k⟩ := T; cases own; rfl)]

theorem mem_ids_of_exposed (distinct : T.ids.Nodup) (mem : x ∈ T.exposed) : x ∈ T.ids := by
  have hoisted := (nodes_hoisted distinct).2
  cases own : T.kind with
  | varDecl keyword list =>
    obtain ⟨c, child, rfl⟩ := List.mem_map.mp ((exposed_varDecl own).subset mem)
    exact mem_ids_of_child child c.tag_mem_ids
  | function name params body | importDefault name source =>
    obtain ⟨y, k⟩ := T
    cases own
    have same : x = y := by simpa [exposed, Tree.hoisted, lexicalOf] using mem
    exact same ▸ tag_mem_ids _
  | _ =>
    rw [exposed_eq_hoisted (by obtain ⟨x, k⟩ := T; cases own; rfl)] at mem
    exact mem_ids_of_inner (hoisted x mem)

/-! ### What a node declares -/

theorem nodes_statements (list : List (Part Nat Name)) :
    ((hoistedList list ++ lexicals list).map Declaration.node).Perm
      ((list.filterMap id).flatMap exposed) := by
  have all : (list.flatMap fun part => hoistedOf part ++ lexicalOf part).map Declaration.node =
      (list.filterMap id).flatMap exposed := nodes_flatMap rfl list
  rw [← all, hoistedList_eq]
  exact (List.flatMap_append_perm list hoistedOf lexicalOf).map _

section Statements

variable (distinct : ((list.filterMap id).flatMap ids).Nodup)

include distinct

theorem nodup_statements : ((hoistedList list ++ lexicals list).map Declaration.node).Nodup := by
  have each {c : Tree Nat Name} (mem : c ∈ list.filterMap id) : c.ids.Nodup :=
    (List.nodup_flatMap.mp distinct).1 c mem
  rw [(nodes_statements list).nodup_iff]
  exact nodup_flatMap_of_ids distinct (fun c mem => nodup_exposed (each mem))
    fun c mem x => mem_ids_of_exposed (each mem)

theorem mem_statements (mem : x ∈ (hoistedList list ++ lexicals list).map Declaration.node) :
    ∃ c ∈ list.filterMap id, x ∈ c.ids ∧ x ∈ c.exposed := by
  rw [(nodes_statements list).mem_iff] at mem
  obtain ⟨c, inside, mem⟩ := List.mem_flatMap.mp mem
  exact ⟨c, inside, mem_ids_of_exposed ((List.nodup_flatMap.mp distinct).1 c inside) mem, mem⟩

end Statements

theorem exposed_block (own : T.kind = .block list) :
    T.exposed = (hoistedList list).map Declaration.node := by
  obtain ⟨x, k⟩ := T
  cases own
  simp [exposed, hoisted, lexicalOf]

theorem params_sublist (T : Tree Nat Name) : (T.params.filterMap id).Sublist T.children := by
  unfold params children
  cases T.kind with
  | function _ params body | arrow params body => simp [Kind.slots, Kind.parts]
  | _ => simp

theorem param_not_mem (distinct : T.ids.Nodup) {p : Tree Nat Name} (param : some p ∈ T.params)
    (visited : c ∈ T.visited) : p.tag ∉ c.ids := by
  intro mem
  obtain ⟨v, inside, same⟩ := List.mem_map.mp mem
  have one : v = p := eq_of_tag_eq distinct (subtrees_trans (subtree_of_visited visited) inside)
    (child_mem_subtrees (child_of_param param)) same
  subst one
  exact param_apart distinct param visited v.self_mem_subtrees inside

/-- Other nodes than blocks declare parameters and what some statements inside expose. -/
theorem exists_statements (distinct : T.ids.Nodup) (plain : ∀ list, T.kind ≠ .block list) :
    ∃ list, (∀ c, some c ∈ list → c ∈ T.visited) ∧ ((list.filterMap id).flatMap ids).Nodup ∧
      T.declared = parameters T.params ++ (hoistedList list ++ lexicals list) ∧
      (T.declared ≠ [] → ∀ x ∈ T.exposed, x = T.tag) := by
  have apart := (nodup_visited distinct).1
  cases own : T.kind with
  | program list =>
    have visited := visited_of_statements (.inl own)
    refine ⟨list, fun c mem => by simpa [visited] using mem, visited ▸ apart,
      by simp [declared, params, parameters, own], fun _ => ?_⟩
    obtain ⟨x, k⟩ := T
    cases own
    simp [exposed, hoisted, lexicalOf]
  | function name params body | arrow params body =>
    have exposed : T.declared ≠ [] → ∀ x ∈ T.exposed, x = T.tag := by
      intro _
      obtain ⟨x, k⟩ := T
      cases own
      simp [Tree.exposed, hoisted, lexicalOf, tag]
    cases block : statements? body with
    | none =>
      refine ⟨[], by simp, by simp, ?_, exposed⟩
      simp [declared, Tree.params, own, block, hoistedList, lexicals]
    | some list =>
      have visited : T.visited = list.filterMap id := by simp [visited, own, block]
      refine ⟨list, fun c mem => by simpa [visited] using mem, visited ▸ apart, ?_, exposed⟩
      simp [declared, Tree.params, own, block]
  | block list => exact (plain list own).elim
  | _ =>
    refine ⟨[], by simp, by simp, ?_, ?_⟩ <;>
      simp [declared, params, parameters, own, hoistedList, lexicals]

/-- What a node declares it declares once, and not for the statements around it. -/
theorem nodes_declared (distinct : T.ids.Nodup) :
    (T.declared.map Declaration.node).Nodup ∧ ∀ x ∈ T.declared.map Declaration.node,
      x ∉ T.exposed ∧
        ((∃ p, some p ∈ T.params ∧ p.tag = x) ∨ ∃ c ∈ T.visited, x ∈ c.ids ∧ x ∈ c.exposed) := by
  by_cases block : ∃ list, T.kind = .block list
  · obtain ⟨list, own⟩ := block
    have visited := visited_of_statements (.inr own)
    have declared : T.declared = lexicals list := by simp [declared, own]
    have apart := (nodup_visited distinct).1
    rw [visited] at apart ⊢
    have once := nodup_statements apart
    rw [List.map_append] at once
    obtain ⟨-, once, disjoint⟩ := List.nodup_append'.mp once
    rw [declared, exposed_block own]
    refine ⟨once, fun x mem => ⟨fun left => disjoint left mem, .inr (mem_statements apart ?_)⟩⟩
    rw [List.map_append]
    exact List.mem_append_right _ mem
  · obtain ⟨list, visited, apart, declared, exposed⟩ :=
      exists_statements distinct (by simpa using block)
    have params {x : Nat} (mem : x ∈ (parameters T.params).map Declaration.node) :
        ∃ p, some p ∈ T.params ∧ p.tag = x := by
      obtain ⟨p, inside, same⟩ := List.mem_map.mp ((parameters_sublist T.params).subset mem)
      exact ⟨p, by simpa using inside, same⟩
    have statements {x : Nat} (mem : x ∈ (hoistedList list ++ lexicals list).map Declaration.node) :
        ∃ c ∈ T.visited, x ∈ c.ids ∧ x ∈ c.exposed := by
      obtain ⟨c, inside, rest⟩ := mem_statements apart mem
      exact ⟨c, visited c (by simpa using inside), rest⟩
    have once := (nodup_children distinct).sublist ((params_sublist T).flatMap ids)
    refine ⟨?_, fun x mem => ?_⟩
    · rw [declared, List.map_append]
      refine List.nodup_append'.mpr ⟨(nodup_tags once).sublist (parameters_sublist _),
        nodup_statements apart, fun x left right => ?_⟩
      obtain ⟨p, param, rfl⟩ := params left
      obtain ⟨c, there, inside, -⟩ := statements right
      exact param_not_mem distinct param there inside
    · have some : T.declared ≠ [] := by
        rintro empty
        simp [empty] at mem
      rw [declared, List.map_append] at mem
      have cases := (List.mem_append.mp mem).imp params statements
      refine ⟨fun here => ?_, cases⟩
      cases exposed some x here
      rcases cases with ⟨p, param, same⟩ | ⟨c, there, inside, -⟩
      · exact tag_not_mem_child distinct (child_of_param param) (same ▸ p.tag_mem_ids)
      · exact (nodup_visited distinct).2 (List.mem_flatMap.mpr ⟨c, there, inside⟩)

/-- What a node has declared, or has others declare, and is inside of something visited, that exposes. -/
theorem exposed_of_visited (distinct : T.ids.Nodup) (visited : c ∈ T.visited) (inner : x ∈ c.innerIds)
    (given : x ∈ T.declared.map Declaration.node ∨ x ∈ T.exposed) : x ∈ c.exposed := by
  have inside := mem_ids_of_inner inner
  have apart := (nodup_visited distinct).1
  have own := nodup_subtree distinct (subtree_of_visited visited)
  -- What a child of a node that visits its children exposes.
  have through {d : Tree Nat Name} (plain : T.visited = T.children) (child : d ∈ T.children)
      (mem : x ∈ d.hoisted.map Declaration.node) : x ∈ c.exposed := by
    have there := mem_ids_of_inner ((nodes_hoisted (nodup_child distinct child)).2 x mem)
    cases eq_of_mem_ids apart visited (plain ▸ child) inside there
    rw [exposed, List.map_append]
    exact List.mem_append_left _ mem
  rcases given with declared | exposed
  · rcases ((nodes_declared distinct).2 x declared).2 with ⟨p, param, rfl⟩ | ⟨d, there, mem, exposed⟩
    · exact (param_not_mem distinct param visited inside).elim
    · cases eq_of_mem_ids apart visited there inside mem
      exact exposed
  · have outside (same : x = T.tag) : False :=
      (nodup_visited distinct).2 (List.mem_flatMap.mpr ⟨c, visited, same ▸ inside⟩)
    cases kind : T.kind with
    | varDecl keyword list =>
      have plain : T.visited = T.children := by simp [Tree.visited, kind]
      obtain ⟨d, child, rfl⟩ := List.mem_map.mp ((exposed_varDecl kind).subset exposed)
      cases eq_of_mem_ids apart visited (plain ▸ child) inside d.tag_mem_ids
      exact (tag_not_mem_inner own inner).elim
    | block list =>
      have plain : T.visited = T.children := by simp [Tree.visited, kind]
      rw [exposed_block kind, hoistedList_eq, nodes_flatMap rfl] at exposed
      obtain ⟨d, child, mem⟩ := List.mem_flatMap.mp exposed
      exact through plain (by simpa [children, kind, Kind.slots, Kind.parts] using child) mem
    | cond test yes no =>
      have plain : T.visited = T.children := by simp [Tree.visited, kind]
      have both : T.exposed = ([yes, no].flatMap hoistedOf).map Declaration.node := by
        obtain ⟨x, k⟩ := T
        cases kind
        simp [Tree.exposed, hoisted, lexicalOf]
      rw [both, nodes_flatMap rfl] at exposed
      obtain ⟨d, child, mem⟩ := List.mem_flatMap.mp exposed
      refine through plain ?_ mem
      have either : some d = yes ∨ some d = no := by simpa using child
      rcases either with rfl | rfl <;> simp [mem_children_iff, kind, Kind.slots, Kind.parts]
    | function name params body | importDefault name source =>
      refine (outside ?_).elim
      obtain ⟨y, k⟩ := T
      cases kind
      simpa [Tree.exposed, hoisted, lexicalOf, tag] using exposed
    | _ =>
      obtain ⟨y, k⟩ := T
      cases kind
      simp [Tree.exposed, hoisted, lexicalOf] at exposed

/-! ### Resolving declares each node once -/

/-- Resolving a tree declares some nodes below it, each once, and none that it exposes. -/
def DeclaresOnce (T : Tree Nat Name) (scope : Nat) (t : Scopes) : Prop :=
  ∃ nodes, Scopes.DeclaresAt nodes t (T.resolveIn scope t) ∧ nodes.Nodup ∧
    ∀ x ∈ nodes, x ∈ T.innerIds ∧ x ∉ T.exposed

theorem declaresAt_foldl {trees : List (Tree Nat Name)} {scope : Nat}
    (distinct : (trees.flatMap ids).Nodup) (each : ∀ c ∈ trees, ∀ t, c.DeclaresOnce scope t)
    (t : Scopes) :
    ∃ nodes, Scopes.DeclaresAt nodes t (trees.foldl (fun t c => c.resolveIn scope t) t) ∧
      nodes.Nodup ∧ ∀ x ∈ nodes, ∃ c ∈ trees, x ∈ c.innerIds ∧ x ∉ c.exposed := by
  induction trees generalizing t with
  | nil => exact ⟨[], .of_eq rfl rfl, .nil, by simp⟩
  | cons c rest ih =>
    obtain ⟨nodes, first, once, own⟩ := each c List.mem_cons_self t
    rw [List.flatMap_cons, List.nodup_append'] at distinct
    obtain ⟨nodes', second, once', others⟩ :=
      ih distinct.2.1 (fun d mem => each d (List.mem_cons_of_mem c mem)) (c.resolveIn scope t)
    refine ⟨nodes ++ nodes', first.append second, List.nodup_append'.mpr ⟨once, once', ?_⟩, ?_⟩
    · intro x left right
      obtain ⟨d, mem, inside, -⟩ := others x right
      exact distinct.2.2 (mem_ids_of_inner (own x left).1)
        (List.mem_flatMap.mpr ⟨d, mem, mem_ids_of_inner inside⟩)
    · intro x mem
      rcases List.mem_append.mp mem with mem | mem
      · exact ⟨c, List.mem_cons_self, own x mem⟩
      · obtain ⟨d, inside, rest⟩ := others x mem
        exact ⟨d, List.mem_cons_of_mem c inside, rest⟩

theorem inner_of_visited (visited : c ∈ T.visited) (mem : x ∈ c.ids) : x ∈ T.innerIds := by
  rcases mem_visited visited with child | ⟨b, child, child'⟩
  · exact List.mem_flatMap.mpr ⟨c, child, mem⟩
  · exact List.mem_flatMap.mpr ⟨b, child, mem_ids_of_child child' mem⟩

theorem declaresOnce (distinct : T.ids.Nodup) (scope : Nat) (t : Scopes) : T.DeclaresOnce scope t := by
  induction T using induction_visited generalizing scope t with
  | step T ih =>
    unfold DeclaresOnce
    by_cases ident : ∃ name, T.kind = .ident name
    · obtain ⟨name, ident⟩ := ident
      rw [resolveIn_ident ident]
      refine ⟨[], ?_, .nil, by simp⟩
      unfold Scopes.refer
      split <;> exact .of_eq rfl rfl
    · obtain ⟨once, own⟩ := nodes_declared distinct
      have entered := declaresAt_enter T scope t
      obtain ⟨nodes, rest, once', others⟩ := declaresAt_foldl (nodup_visited distinct).1
        (fun c mem t' => ih c mem (nodup_subtree distinct (subtree_of_visited mem))
          (T.enter scope t).1 t') (T.enter scope t).2
      rw [resolveIn_eq (by simpa using ident)]
      refine ⟨_, entered.append rest, List.nodup_append'.mpr ⟨once, once', fun x left right => ?_⟩,
        fun x mem => ?_⟩
      · obtain ⟨c, visited, inner, hidden⟩ := others x right
        exact hidden (exposed_of_visited distinct visited inner (.inl left))
      · rcases List.mem_append.mp mem with mem | mem
        · obtain ⟨hidden, cases⟩ := own x mem
          refine ⟨?_, hidden⟩
          rcases cases with ⟨p, param, rfl⟩ | ⟨c, visited, inside, -⟩
          · exact List.mem_flatMap.mpr ⟨p, child_of_param param, p.tag_mem_ids⟩
          · exact inner_of_visited visited inside
        · obtain ⟨c, visited, inner, hidden⟩ := others x mem
          exact ⟨inner_of_visited visited (mem_ids_of_inner inner), fun exposed =>
            hidden (exposed_of_visited distinct visited inner (.inr exposed))⟩

end Tree

namespace Scopes

variable {s s' : Store} {t t' : Scopes}

/-- If what can be reached is a tree then the first declaration of a binding stays tied to it. -/
theorem mapped_resolve {root : Slot} (run : s.resolve root = .ok t) (tree : ∀ x ∈ root, s.IsTree x) :
    t.Mapped := by
  have start : (({} : Scopes).openScope .program none).2.Mapped := by
    intro b entry found
    simp [openScope] at found
  cases root with
  | none =>
    cases run
    exact start
  | some x =>
    obtain ⟨T, rfl, holds, distinct⟩ := (tree x rfl).holds
    obtain ⟨nodes, declares, once, -⟩ :=
      T.declaresOnce distinct 0 (({} : Scopes).openScope .program none).2
    rw [(holds.resolve False.elim).unique t run]
    exact declares.mapped start once fun y _ => by simp [openScope, declaredBy]

/-- The tables of scopes are as they should be: they agree, and what climbs in them ends. -/
structure Represents (s : Store) (t : Scopes) : Prop extends Valid s t where
  once : ∀ (b b' : Nat) entry entry', t.bindings[b]? = some entry → t.bindings[b']? = some entry' →
    entry.scope = entry'.scope → entry.name = entry'.name → b = b'
  lookup_ends : ∀ scope fuel name, scope < fuel → t.lookupWithin fuel scope name = t.lookup scope name
  functionScope_ends : ∀ scope fuel, scope < t.scopes.size → scope ≤ fuel →
    t.functionScopeWithin fuel scope = t.functionScope scope ∧
      ∃ entry, t.scopes[t.functionScope scope]? = some entry ∧ entry.kind ≠ .block

theorem Valid.represents (h : t.Valid s) : t.Represents s where
  toValid := h
  once b b' entry entry' found found' scope name := by
    have first := (h.names entry.scope entry.name b).mpr ⟨entry, found, rfl, rfl⟩
    have second := (h.names entry.scope entry.name b').mpr ⟨entry', found', scope.symm, name.symm⟩
    exact Option.some.inj (first.symm.trans second)
  lookup_ends scope fuel name enough := h.lookupWithin_eq name enough (Nat.lt_succ_self scope)
  functionScope_ends scope fuel inside enough :=
    ⟨(h.functionScopeWithin_eq inside enough (Nat.le_refl scope)).1, h.functionScope_hoists inside⟩

theorem Valid.grow (h : t.Valid s) (grown : s.Evolves (fun _ => False) s') : t.Valid s' := by
  have kept {slot : Slot} {k : NodeKind} (own : s.kind slot = .ok k) : s'.kind slot = .ok k := by
    obtain ⟨n, found, same⟩ := Store.kind_eq_ok_iff.mp own
    cases slot with
    | none => cases found
    | some x => exact Store.kind_eq_ok_iff.mpr ⟨n, grown.kept found id, same⟩
  refine ⟨h.first, h.root, h.older, h.names, fun slot b refers => ?_,
    fun slot b declared => ?_, h.hoisted⟩
  · obtain ⟨name, entry, own, rest⟩ := h.references slot b refers
    exact ⟨name, entry, kept own, rest⟩
  · obtain ⟨k, entry, own, rest⟩ := h.declarations slot b declared
    exact ⟨k, entry, kept own, rest⟩

def copyReferences (t : Scopes) (pairs : List (Slot × Slot)) : Scopes :=
  pairs.foldl (fun t pair => t.copyReference pair.1 pair.2) t

theorem steps_copyReferences {pairs : List (Slot × Slot)}
    (alike : ∀ pair ∈ pairs, ∃ name, s.kind pair.1 = .ok (.ident name) ∧
      s.kind pair.2 = .ok (.ident name)) (t : Scopes) :
    Relation.ReflTransGen (Step s) t (t.copyReferences pairs) := by
  unfold copyReferences
  induction pairs generalizing t with
  | nil => exact .refl
  | cons pair rest ih =>
    obtain ⟨name, own, same⟩ := alike pair List.mem_cons_self
    exact .head (.copyReference t own same)
      (ih (fun pair mem => alike pair (List.mem_cons_of_mem _ mem)) _)

theorem Mapped.copyReference (h : t.Mapped) (copy source : Slot) :
    (t.copyReference copy source).Mapped := by
  unfold Scopes.copyReference
  split <;> exact h

theorem Mapped.copyReferences (h : t.Mapped) (pairs : List (Slot × Slot)) :
    (t.copyReferences pairs).Mapped := by
  unfold Scopes.copyReferences
  induction pairs generalizing t with
  | nil => exact h
  | cons pair rest ih => exact ih (h.copyReference pair.1 pair.2)

end Scopes

/--
Scopes that were resolved in a store, whatever it holds, agree with it, and still do
when the store has grown and copies were made to refer to what identifiers of the same
name refer to. If what can be reached from the root is a tree, then each binding's
first declaration is tied to that binding.
-/
theorem Store.resolve_represents {s s' : Store} {root : Slot} {t : Scopes}
    (run : s.resolve root = .ok t) (grown : s.Evolves (fun _ => False) s')
    (pairs : List (Slot × Slot))
    (alike : ∀ pair ∈ pairs, ∃ name, s'.kind pair.1 = .ok (.ident name) ∧
      s'.kind pair.2 = .ok (.ident name)) :
    (t.copyReferences pairs).Represents s' ∧
      ((∀ x ∈ root, s.IsTree x) → (t.copyReferences pairs).Mapped) :=
  ⟨(((Scopes.valid_resolve run).grow grown).steps (Scopes.steps_copyReferences alike t)).represents,
    fun tree => (Scopes.mapped_resolve run tree).copyReferences pairs⟩

namespace Sample

/-- The nested sample with a copy of its first use of `x`. -/
def copiedStore : Store :=
  nestedStore.push (.ident 1) ⟨22, 23⟩

end Sample

/-- The sample has names that are hoisted and shadowed, and its first use of `x` is copied. -/
theorem Store.resolve_represents_copied :
    ∃ t, Sample.nestedStore.resolve (some 27) = .ok t ∧
      Sample.nestedStore.Evolves (fun _ => False) Sample.copiedStore ∧
      (∃ name, Sample.copiedStore.kind (some 28) = .ok (.ident name) ∧
        Sample.copiedStore.kind (some 8) = .ok (.ident name)) ∧
      Sample.nestedStore.IsTree 27 ∧
      (t.copyReferences [(some 28, some 8)]).Represents Sample.copiedStore ∧
      (t.copyReferences [(some 28, some 8)]).Mapped := by
  have holds : Sample.nestedStore.Holds Sample.nestedTree := by decide +kernel
  have distinct : Sample.nestedTree.ids.Nodup := by decide +kernel
  have tree : Sample.nestedStore.IsTree 27 := holds.isTree distinct
  have run := resolve_eq holds (by decide +kernel)
  have grown : Sample.nestedStore.Evolves (fun _ => False) Sample.copiedStore := evolves_push ..
  have alike : ∃ name, Sample.copiedStore.kind (some 28) = .ok (.ident name) ∧
      Sample.copiedStore.kind (some 8) = .ok (.ident name) := ⟨1, by decide +kernel, by decide +kernel⟩
  obtain ⟨represents, mapped⟩ := resolve_represents run grown [(some 28, some 8)]
    (by simpa using alike)
  refine ⟨_, run, grown, alike, tree, represents, mapped ?_⟩
  rintro x ⟨⟩
  exact tree

end BigLower
