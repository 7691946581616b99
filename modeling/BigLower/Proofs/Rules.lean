import BigLower.Proofs.Flow

/-! # What each rule does

A rule that is applied on the way down turns a node into a call of a library
member that is added for it. Where the store holds the tree the rule cannot
fault; it follows the plan, and it changes no other node.
-/

namespace BigLower

namespace Store

variable {s s' s₁ : Store} {x : Nat}

/-! ## Calls of the library -/

theorem holds_node {k : TreeKind} {range : Range}
    (found : s.kind (some x) = .ok (k.map (Option.map Tree.tag) fun _ => range))
    (lists : ∀ list, .inr list ∈ k.parts → s.list range = .ok (list.map (Option.map Tree.tag)))
    (below : ∀ c ∈ (Tree.node x k).children, s.Holds c) : s.Holds (.node x k) := by
  obtain ⟨⟨_, span⟩, found, rfl⟩ := kind_eq_ok_iff.mp found
  exact holds_iff.mpr ⟨shape_tree_iff.mpr ⟨range, span, found, lists⟩, below⟩

theorem holds_leaf {k : TreeKind} (leaf : k.parts = [])
    (found : s.kind (some x) = .ok (k.map (Option.map Tree.tag) fun _ => .empty)) :
    s.Holds (.node x k) := by
  refine holds_node found (by simp [leaf]) ?_
  simp [Tree.children, Tree.kind, Kind.slots, leaf]

theorem holds_libraryMember {library property : Name} {o m : Nat}
    (object : s.kind (some o) = .ok (.ident library))
    (member : s.kind (some m) = .ok (.member (some o) property)) :
    s.Holds (Tree.libraryMember library property o m) := by
  refine @holds_node s m (.member (some (.node o (.ident library))) property) .empty member
    (by simp [Kind.parts]) fun c child => ?_
  have here : c = .node o (.ident library) := by
    simpa [Tree.mem_children_iff, Tree.kind, Kind.slots, Kind.parts] using child
  rw [here]
  exact holds_leaf rfl object

theorem holds_call {callee : Tree Nat Name} {args : List (Tree.Part Nat Name)} {range : Range}
    (found : s.kind (some x) = .ok (.call (some callee.tag) range))
    (list : s.list range = .ok (args.map (Option.map Tree.tag))) (first : s.Holds callee)
    (rest : ∀ c, some c ∈ args → s.Holds c) : s.Holds (.node x (.call (some callee) args)) := by
  refine holds_node found (fun list' mem => ?_) fun c child => ?_
  · have same : list' = args := by simpa [Kind.parts] using mem
    rw [same, list]
  · have cases : c = callee ∨ some c ∈ args := by
      simpa [Tree.mem_children_iff, Tree.kind, Kind.slots, Kind.parts, eq_comm] using child
    rcases cases with rfl | mem
    · exact first
    · exact rest c mem

/-- A node has become a call of a library member, which was added right behind the old nodes. -/
structure BecomesCall (s s' : Store) (library : Name) (x : Nat) (property : Name) (args : Range) :
    Prop where
  grown : s.Evolves (· = x) s'
  object : s'.kind (some s.size) = .ok (.ident library)
  callee : s'.kind (some (s.size + 1)) = .ok (.member (some s.size) property)
  call : s'.kind (some x) = .ok (.call (some (s.size + 1)) args)

theorem replace_of_lt (old : x < s.size) (k : NodeKind) :
    ∃ s', s.replace (some x) k = .ok s' ∧ s'.kind (some x) = .ok k := by
  obtain ⟨s', replaced⟩ : ∃ s', s.replace (some x) k = .ok s' :=
    ⟨_, replace_eq_ok_iff.mpr ⟨x, rfl, old, rfl⟩⟩
  have here : s.node? (some x) = some s.nodes[x] := Array.getElem?_eq_getElem old
  refine ⟨s', replaced, kind_eq_ok_iff.mpr ⟨⟨k, s.nodes[x].span⟩, ?_, rfl⟩⟩
  rw [node?_replace replaced, if_pos rfl, here]
  rfl

/-- A node is replaced by a call, when the member and perhaps more has been added. -/
theorem becomesCall {library property : Name} {span : Span}
    (grown : (s.withMember library property span).Evolves (fun _ => False) s₁) (old : x < s.size)
    (args : Range) :
    ∃ s', s₁.replace (some x) (.call (some (s.size + 1)) args) = .ok s' ∧
      s.BecomesCall s' library x property args ∧ s₁.Evolves (· = x) s' := by
  have all : s.Evolves (fun _ => False) s₁ := (evolves_withMember s _ _ _).trans grown
  obtain ⟨s', replaced, own⟩ :=
    replace_of_lt (Nat.lt_of_lt_of_le old all.size_le) (.call (some (s.size + 1)) args)
  have moved := evolves_replace replaced
  have object := grown.kind (kind_withMember_object s library property span) id
  have callee := grown.kind (kind_withMember_callee s library property span) id
  exact ⟨s', replaced, ⟨(all.mono fun _ _ => False.elim).trans moved, moved.kind object (by omega),
    moved.kind callee (by omega), own⟩, moved⟩

end Store

theorem LibraryNames.memberFor_map {σ ρ σ' ρ' : Type} (L : LibraryNames) (f : σ → σ')
    (g : ρ → ρ') (k : Kind Name σ ρ) : L.memberFor (k.map f g) = L.memberFor k := by
  cases k <;> rfl

namespace Setup

variable {τ : Type} [Naming τ] {C : Setup} {names : τ} {q : Pass τ} {P : Plan}
  {T : Tree Nat Name} {enclosing : Slot}

structure CallLowered (C : Setup) (names : τ) (q q' : Pass τ) (P : Plan) (T : Tree Nat Name)
    (enclosing : Slot) (property : Name) (operands : List (Tree.Part Nat Name)) : Prop where
  progress : C.Progress names q' (C.policy.mark P enclosing T.tag)
  grown : q.store.Evolves (· = T.tag) q'.store
  holds : q'.store.Holds (.node T.tag (.call (some (Tree.libraryMember C.library.library property
    q.store.size (q.store.size + 1))) operands))
  facts : q'.facts = q.facts.marked q.scopes enclosing T.tag
  scopes : q'.scopes = q.scopes
  later : Naming.Grows q.names q'.names
  /-- Besides the member no more was added than is among the arguments. -/
  filled : ∀ x, q.store.size ≤ x → x < q'.store.size → x = q.store.size ∨ x = q.store.size + 1 ∨
    x ∈ (operands.filterMap id).flatMap Tree.ids

theorem callLowered (h : C.Progress names q P) (below : T ∈ C.tree.subtrees)
    (kept : q.facts.isReplaced (some T.tag) = false) {s' : Store} {names' : τ} {rule : Rule}
    (own : T.rule? C.library.constructor = some rule) {property : Name} {range : Range}
    {operands : List (Tree.Part Nat Name)}
    (step : q.store.BecomesCall s' C.library.library T.tag property range)
    (list : s'.list range = .ok (operands.map (Option.map Tree.tag)))
    (parts : ∀ c, some c ∈ operands → s'.Holds c) (later : Naming.Grows q.names names')
    (became : AddedMember C.library C.store s' property (q.store.size + 1) →
      Became C.library C.store (Naming.spelling names names') s' T)
    (filled : ∀ x, q.store.size + 2 ≤ x → x < s'.size →
      x ∈ (operands.filterMap id).flatMap Tree.ids) :
    C.CallLowered names q (Progress.mark q s' names' enclosing T.tag (q.tally.count rule)) P T
      enclosing property operands where
  progress := by
    have start := h.grown.size_le
    exact h.lower below kept own step.grown later
      (became ⟨by omega, q.store.size, start, step.object, step.callee⟩)
  grown := step.grown
  holds := Store.holds_call step.call list (Store.holds_libraryMember step.object step.callee) parts
  facts := rfl
  scopes := rfl
  later := later
  filled x new bound := by
    by_cases member : x = q.store.size ∨ x = q.store.size + 1
    · exact member.imp_right .inl
    · exact .inr (.inr (filled x (by omega) bound))

theorem holds_child {s s' : Store} (holds : s.Holds T) (grown : s.Evolves (· = T.tag) s')
    {c : Tree Nat Name} (child : c ∈ T.children) : s'.Holds c :=
  (holds.child child).evolve grown fun _ inside same =>
    holds.tag_not_mem_child child (same ▸ inside)

section Rules

variable (enclosing) (h : C.Progress names q P) (below : T ∈ C.tree.subtrees)
  (holds : q.store.Holds T) (kept : q.facts.isReplaced (some T.tag) = false)

include h below holds kept

theorem runs_lowerLiteral {digits : Name} (kind : T.kind = .bigInt digits) (span : Span) :
    ∃ q', C.Runs (fun judge => (C.engine judge).lowerLiteral enclosing T.tag digits span) q () q' ∧
      C.CallLowered names q q' P T enclosing C.library.factory
        [some (.node (q.store.size + 2) (.str digits))] := by
  have start := h.grown.size_le
  have old : T.tag < q.store.size := holds.lt_size T.tag_mem_ids
  let s₁ := q.store.withMember C.library.library C.library.factory span
  have two : s₁.size = q.store.size + 2 := Store.size_withMember ..
  have short : [some s₁.size].length ≤ Store.maxListLength := by simp [Store.maxListLength]
  obtain ⟨range, s₂, stored⟩ := (s₁.push (.str digits) span).exists_append [some s₁.size]
  have listed : (s₁.push (.str digits) span).Evolves (fun _ => False) s₂ :=
    Store.evolves_append stored
  obtain ⟨s', replaced, step, moved⟩ :=
    Store.becomesCall ((Store.evolves_push s₁ _ span).trans listed) old range
  have text : s'.kind (some (q.store.size + 2)) = .ok (.str digits) := by
    have first : (s₁.push (.str digits) span).kind (some s₁.size) = .ok (.str digits) :=
      Store.kind_of_node? (Store.node?_push_self ..)
    rw [two] at first
    exact moved.kind (listed.kind first id) (by omega)
  have list := moved.list (Store.list_append stored)
  rw [two] at list
  have size : s'.size = q.store.size + 3 := by
    rw [Store.size_replace replaced, Store.size_append stored, Store.size_push, two]
  have own : T.rule? C.library.constructor = some .literal := by
    rw [Tree.rule?, kind]
    rfl
  refine ⟨_, ?_, callLowered h below kept own step list (fun c mem => ?_)
    .refl (fun member => .literal kind member (by omega) text list step.call) fun x new bound => ?_⟩
  · refine .bind (.libraryMember C.library.factory span) ?_
    refine .bind (.alloc _ span) ?_
    exact .bind (.allocList short stored)
      (.bind (.replace replaced) (.applied enclosing T.tag .literal))
  · cases List.mem_singleton.mp mem
    exact Store.holds_leaf rfl text
  · refine List.mem_flatMap.mpr ⟨_, List.mem_singleton_self _, ?_⟩
    rw [Tree.ids_leaf rfl, List.mem_singleton, Tree.tag]
    omega

theorem runs_lowerConstructor {callee : Tree Nat Name} {args : List (Tree.Part Nat Name)}
    (call : T.kind = .call (some callee) args)
    (constructor : callee.isConstructor C.library.constructor = true) :
    ∃ range span q', q.store.node? (some T.tag) = some ⟨.call (some callee.tag) range, span⟩ ∧
      C.Runs (fun judge =>
        (C.engine judge).lowerConstructor enclosing T.tag (some callee.tag) range) q () q' ∧
      C.CallLowered names q q' P T enclosing (C.library.memberFor callee.kind) args := by
  have old : T.tag < q.store.size := holds.lt_size T.tag_mem_ids
  have child := Tree.child_of_callee call
  obtain ⟨range, span, found, lists⟩ := Store.shape_tree_iff.mp holds.top
  rw [call] at found lists
  obtain ⟨range₁, span₁, callee?, -⟩ := Store.shape_tree_iff.mp (holds.child child).top
  let property := C.library.memberFor callee.kind
  let s₁ := q.store.withMember C.library.library property span₁
  have grown : q.store.Evolves (fun _ => False) s₁ := Store.evolves_withMember ..
  obtain ⟨s', replaced, step, moved⟩ := Store.becomesCall (.refl s₁) old range
  have list := moved.list (grown.list (lists args (by simp [Kind.parts])))
  have start : C.store.kind (some T.tag) = .ok (.call (some callee.tag) range) := by
    rw [h.node?_eq_of_call below kept call] at found
    exact Store.kind_of_node? found
  have size : s'.size = q.store.size + 2 :=
    (Store.size_replace replaced).trans (Store.size_withMember ..)
  have own : T.rule? C.library.constructor = some .constructor := by
    simp [Tree.rule?, Kind.rule?, call, constructor]
  refine ⟨range, span, _, found, ?_, callLowered h below kept own step list
    (fun c mem => holds_child holds step.grown (Tree.child_of_arg call mem)) .refl
    (fun member => .constructor call constructor member start step.call) fun x new bound => by omega⟩
  have member : C.Runs (fun judge => (C.engine judge).libraryMember
      (C.library.memberFor (callee.kind.map (Option.map Tree.tag) fun _ => range₁)) span₁)
      q (q.store.size + 1) { q with store := s₁ } := by
    rw [LibraryNames.memberFor_map]
    exact .libraryMember property span₁
  exact .bind (.node callee?) (.bind member (.bind (.replace replaced)
    (.applied enclosing T.tag .constructor)))

theorem runs_lowerOperation {method : String} {operands : List (Tree.Part Nat Name)}
    (op : T.kind.operation? = some (method, operands)) (span : Span) {rule : Rule}
    (own : T.rule? C.library.constructor = some rule) :
    ∃ q' property, C.Runs (fun judge => (C.engine judge).lowerOperation enclosing T.tag span method
        (operands.map (Option.map Tree.tag)) rule) q () q' ∧
      Naming.Spells names q'.names method property ∧
      C.CallLowered names q q' P T enclosing property operands := by
  have old : T.tag < q.store.size := holds.lt_size T.tag_mem_ids
  let property := (Naming.intern q.names method).1
  let s₁ := q.store.withMember C.library.library property span
  have short : (operands.map (Option.map Tree.tag)).length ≤ Store.maxListLength := by
    have two := Kind.length_operation? op
    simp only [List.length_map, Store.maxListLength]
    omega
  obtain ⟨range, s₂, stored⟩ := s₁.exists_append (operands.map (Option.map Tree.tag))
  obtain ⟨s', replaced, step, moved⟩ :=
    Store.becomesCall (Store.evolves_append stored) old range
  have list := moved.list (Store.list_append stored)
  have spells : Naming.Spells names (Naming.intern q.names method).2 method property :=
    ⟨q.names, h.interned, rfl, .refl⟩
  have size : s'.size = q.store.size + 2 := by
    rw [Store.size_replace replaced, Store.size_append stored, Store.size_withMember]
  have filled : ∀ x, q.store.size + 2 ≤ x → x < s'.size →
      x ∈ (operands.filterMap id).flatMap Tree.ids := fun x new bound => by omega
  exact ⟨_, property, .bind (.intern method) (.bind (.libraryMember property span)
    (.bind (.allocList short stored) (.bind (.replace replaced) (.applied enclosing T.tag rule)))),
    spells, callLowered h below kept own step list
      (fun c mem => holds_child holds step.grown (Tree.child_of_operation op mem))
      (.intern .refl method) (fun member => .operation op spells member list step.call) filled⟩

end Rules

end Setup

end BigLower
