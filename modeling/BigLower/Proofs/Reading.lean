import BigLower.Proofs.Faults
import BigLower.Proofs.Trees

/-! # What a store holds

The shape of a stored node is its kind with the lists read out. A store holds a
tree if every subtree has its shape there. Stores only grow, and single nodes
get new kinds; a tree outlives every change that spares its nodes.
-/

namespace BigLower

/-- A node's kind with its lists read out. -/
abbrev Shape := Kind Name Slot (List Slot)

namespace Store

/-! ## Shapes -/

def shape (s : Store) (x : Nat) : Except Fault Shape := do
  (← s.kind (some x)).traverse pure pure s.list

/-- A node has a shape if it is of that kind, with the list of the shape in its range. -/
theorem shape_eq_ok_iff {s : Store} {x : Nat} {shape : Shape} :
    s.shape x = .ok shape ↔
      ∃ range span, s.node? (some x) = some ⟨shape.map id fun _ => range, span⟩ ∧
        ∀ slots, .inr slots ∈ shape.parts → s.list range = .ok slots := by
  unfold Store.shape Store.kind
  constructor
  · intro h
    cases found : s.node? (some x) with
    | none => simp [found, bind, Except.bind] at h
    | some n =>
      obtain ⟨kind, span⟩ := n
      cases kind <;>
        simp only [found, Kind.traverse, bind, Except.bind, pure, Except.pure] at h
      all_goals first
        | (cases h
           exact ⟨.empty, span, rfl, by simp [Kind.parts]⟩)
        | (split at h
           · cases h
           · rename_i range _ slots read
             cases h
             exact ⟨_, span, rfl, by simpa [Kind.parts] using read⟩)
  · rintro ⟨range, span, found, lists⟩
    cases shape <;>
      simp_all [Kind.traverse, Kind.parts, Kind.map, bind, Except.bind, pure, Except.pure]

theorem slotsOf_eq {s : Store} {range : Range} {parts : List (Slot ⊕ List Slot)}
    (lists : ∀ slots, .inr slots ∈ parts → s.list range = .ok slots) :
    s.slotsOf (parts.map (Sum.map id fun _ => range)) =
      .ok (parts.flatMap (Sum.elim (fun slot => [slot]) id)) := by
  induction parts with
  | nil => rfl
  | cons part rest ih =>
    have others := ih fun slots mem => lists slots (List.mem_cons_of_mem part mem)
    cases part with
    | inl slot => simp [slotsOf, others, bind, Except.bind, pure, Except.pure]
    | inr slots =>
      have own := lists slots List.mem_cons_self
      simp [slotsOf, own, others, bind, Except.bind, pure, Except.pure]

theorem children_of_shape {s : Store} {x : Nat} {shape : Shape} (h : s.shape x = .ok shape) :
    s.children (some x) = .ok (shape.slots.filterMap id) := by
  obtain ⟨range, span, found, lists⟩ := shape_eq_ok_iff.mp h
  have slots := slotsOf_eq lists
  rw [← Kind.parts_map] at slots
  simp [children, kind, found, slots, Kind.slots, bind, Except.bind, pure, Except.pure]

/-! ## Growing stores -/

/--
A store has grown into another: lists were only added, and old nodes are still
there with their spans, and with their kinds but where `changed` allows another.
-/
structure Evolves (changed : Nat → Prop) (s s' : Store) : Prop where
  lists : ∃ more, s'.lists = s.lists ++ more
  node : ∀ id n, s.node? (some id) = some n →
    ∃ kind, s'.node? (some id) = some ⟨kind, n.span⟩ ∧ (¬ changed id → kind = n.kind)

namespace Evolves

variable {changed changed' : Nat → Prop} {s s' s'' : Store}

theorem refl (s : Store) : s.Evolves changed s :=
  ⟨⟨#[], by simp⟩, fun _ n found => ⟨n.kind, found, fun _ => rfl⟩⟩

theorem trans (first : s.Evolves changed s') (second : s'.Evolves changed s'') :
    s.Evolves changed s'' := by
  refine ⟨?_, fun id n found => ?_⟩
  · obtain ⟨more, h⟩ := first.lists
    obtain ⟨more', h'⟩ := second.lists
    exact ⟨more ++ more', by rw [h', h, Array.append_assoc]⟩
  · obtain ⟨kind, found', same⟩ := first.node id n found
    obtain ⟨kind', found'', same'⟩ := second.node id _ found'
    exact ⟨kind', found'', fun kept => (same' kept).trans (same kept)⟩

theorem mono (h : s.Evolves changed s') (wider : ∀ id, id < s.size → changed id → changed' id) :
    s.Evolves changed' s' := by
  refine ⟨h.lists, fun id n found => ?_⟩
  obtain ⟨kind, found', same⟩ := h.node id n found
  exact ⟨kind, found', fun kept => same fun moved => kept (wider id (node?_lt found) moved)⟩

theorem kept (h : s.Evolves changed s') {id : Nat} {n : Node} (found : s.node? (some id) = some n)
    (spared : ¬ changed id) : s'.node? (some id) = some n := by
  obtain ⟨kind, found', same⟩ := h.node id n found
  rw [found', same spared]

theorem size_le (h : s.Evolves changed s') : s.size ≤ s'.size := by
  by_contra smaller
  have bound : s'.size < s.nodes.size := Nat.lt_of_not_le smaller
  obtain ⟨_, found, _⟩ := h.node s'.size s.nodes[s'.size] (Array.getElem?_eq_getElem bound)
  exact Nat.lt_irrefl _ (node?_lt found)

theorem list (h : s.Evolves changed s') {range : Range} {slots : List Slot}
    (read : s.list range = .ok slots) : s'.list range = .ok slots := by
  obtain ⟨more, added⟩ := h.lists
  exact list_of_append added read

theorem shape (h : s.Evolves changed s') {id : Nat} {shape : Shape}
    (read : s.shape id = .ok shape) (spared : ¬ changed id) : s'.shape id = .ok shape := by
  obtain ⟨range, span, found, lists⟩ := shape_eq_ok_iff.mp read
  exact shape_eq_ok_iff.mpr
    ⟨range, span, h.kept found spared, fun slots mem => h.list (lists slots mem)⟩

end Evolves

theorem evolves_push (s : Store) (kind : NodeKind) (span : Span) {changed : Nat → Prop} :
    s.Evolves changed (s.push kind span) :=
  ⟨⟨#[], by simp⟩, fun _ n found => ⟨n.kind, node?_push_of_some found kind span, fun _ => rfl⟩⟩

theorem exists_append (s : Store) (slots : List Slot) :
    ∃ range s', s.append slots = (range, s') :=
  ⟨_, _, rfl⟩

theorem evolves_append {s s' : Store} {slots : List Slot} {range : Range}
    (h : s.append slots = (range, s')) {changed : Nat → Prop} : s.Evolves changed s' := by
  obtain ⟨nodes, lists⟩ := append_lists h
  refine ⟨⟨slots.toArray, lists⟩, fun id n found => ⟨n.kind, ?_, fun _ => rfl⟩⟩
  simpa [node?, nodes] using found

theorem evolves_replace {s s' : Store} {id : Nat} {kind : NodeKind}
    (h : s.replace (some id) kind = .ok s') : s.Evolves (· = id) s' := by
  refine ⟨⟨#[], by simp [lists_replace h]⟩, fun id' n found => ?_⟩
  rw [node?_replace h]
  by_cases same : id' = id
  · subst same
    exact ⟨kind, by simp [found], fun kept => (kept rfl).elim⟩
  · exact ⟨n.kind, by simp [same, found], fun _ => rfl⟩

end Store

namespace Tree

/-! ## Trees in a store -/

def shape (T : Tree Nat Name) : Shape :=
  T.kind.map (Option.map tag) (List.map (Option.map tag))

theorem slots_shape (T : Tree Nat Name) : T.shape.slots.filterMap id = T.children.map tag := by
  unfold shape children
  rw [Kind.slots_map, List.filterMap_map, List.map_filterMap]
  rfl

theorem shape_mapChildren {T : Tree Nat Name} {f : Tree Nat Name → Tree Nat Name}
    (same : ∀ c ∈ T.children, (f c).tag = c.tag) : (T.mapChildren f).shape = T.shape := by
  have agree : ∀ part ∈ T.kind.slots, (Option.map tag ∘ Option.map f) part = Option.map tag part := by
    intro part mem
    cases part with
    | none => rfl
    | some c => simpa using same c (List.mem_filterMap.mpr ⟨some c, mem, rfl⟩)
  have lists : (List.map (Option.map tag) ∘ List.map (Option.map f)) =
      List.map (Option.map (@tag Nat Name) ∘ Option.map f) :=
    funext fun list => List.map_map
  unfold shape
  rw [kind_mapChildren, Kind.map_map, lists, Kind.map_congr agree]

end Tree

namespace Store

/-- A node has the shape of a tree if it is of the tree's kind, by indices and with a range. -/
theorem shape_tree_iff {s : Store} {x : Nat} {T : Tree Nat Name} :
    s.shape x = .ok T.shape ↔
      ∃ range span, s.node? (some x) = some ⟨T.kind.map (Option.map Tree.tag) fun _ => range, span⟩ ∧
        ∀ list, .inr list ∈ T.kind.parts → s.list range = .ok (list.map (Option.map Tree.tag)) := by
  rw [shape_eq_ok_iff]
  unfold Tree.shape
  simp only [Kind.map_map, Kind.parts_map, List.mem_map]
  constructor
  · rintro ⟨range, span, found, lists⟩
    exact ⟨range, span, found, fun list mem => lists _ ⟨.inr list, mem, rfl⟩⟩
  · rintro ⟨range, span, found, lists⟩
    refine ⟨range, span, found, ?_⟩
    rintro slots ⟨part, mem, same⟩
    cases part with
    | inl part => cases same
    | inr list =>
      cases same
      exact lists list mem

def Holds (s : Store) (T : Tree Nat Name) : Prop :=
  ∀ u ∈ T.subtrees, s.shape u.tag = .ok u.shape

section Holds

variable {s s' : Store} {T : Tree Nat Name}

theorem holds_iff : s.Holds T ↔ s.shape T.tag = .ok T.shape ∧ ∀ c ∈ T.children, s.Holds c := by
  constructor
  · intro h
    exact ⟨h T T.self_mem_subtrees, fun c child u below => h u (Tree.mem_subtrees_of_child child below)⟩
  · rintro ⟨top, below⟩ u mem
    rcases Tree.mem_subtrees_iff.mp mem with rfl | ⟨c, child, inside⟩
    · exact top
    · exact below c child u inside

theorem Holds.top (h : s.Holds T) : s.shape T.tag = .ok T.shape :=
  h T T.self_mem_subtrees

theorem Holds.subtree (h : s.Holds T) {u : Tree Nat Name} (below : u ∈ T.subtrees) : s.Holds u :=
  fun v inside => h v (Tree.subtrees_trans below inside)

theorem Holds.child (h : s.Holds T) {c : Tree Nat Name} (child : c ∈ T.children) : s.Holds c :=
  h.subtree (Tree.child_mem_subtrees child)

theorem Holds.children (h : s.Holds T) : s.children (some T.tag) = .ok (T.children.map Tree.tag) := by
  rw [children_of_shape h.top, Tree.slots_shape]

theorem Holds.lt_size (h : s.Holds T) {x : Nat} (mem : x ∈ T.ids) : x < s.size := by
  obtain ⟨u, below, rfl⟩ := List.mem_map.mp mem
  obtain ⟨_, _, found, _⟩ := shape_eq_ok_iff.mp (h u below)
  exact node?_lt found

/-- A held tree without repetitions is no larger than the store. -/
theorem Holds.length_le (h : s.Holds T) (distinct : T.ids.Nodup) : T.ids.length ≤ s.size := by
  have inside : T.ids ⊆ List.range s.size := fun x mem => List.mem_range.mpr (h.lt_size mem)
  simpa using distinct.length_le_of_subset inside

/-- A tree outlives every change that spares its nodes. -/
theorem Holds.evolve (h : s.Holds T) {changed : Nat → Prop} (grown : s.Evolves changed s')
    (spared : ∀ x ∈ T.ids, ¬ changed x) : s'.Holds T :=
  fun u below => grown.shape (h u below) (spared u.tag (List.mem_map_of_mem below))

end Holds

end Store

end BigLower
