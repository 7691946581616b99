import BigLower.Proofs.Printing
import BigLower.Proofs.Rooted
import Mathlib.Algebra.GroupWithZero.Nat

/-! # Deep copies are faithful

If all that can be reached from a node can be read and none of it is below itself, then
the node can be copied deeply, provided that the store has room for the tree below it, in
which a shared node is as often as it is shared. The copy is new throughout and shares
nothing, it equals the original but for the indices of its nodes, and the pairs go through
both in the same order, children before parents.
-/

namespace BigLower

namespace Store

variable {s : Store} {T : Tree Nat Name}

theorem Holds.treeWithin_gaps (holds : s.Holds T) {fuel : Nat} (enough : T.height ≤ fuel) :
    s.treeWithin (pure none) fuel T.tag = .ok T := by
  induction T using Tree.induction generalizing fuel with
  | step T ih =>
    cases fuel with
    | zero =>
      have := T.height_pos
      omega
    | succ fuel =>
      have below (p : Tree.Part Nat Name) (mem : p ∈ T.kind.slots) :
          part (pure none) (s.treeWithin (pure none) fuel) (p.map Tree.tag) = .ok p := by
        cases p with
        | none => rfl
        | some c =>
          have child : c ∈ T.children := Tree.mem_children_iff.mpr mem
          have lower := Tree.height_lt child
          exact part_eq_ok_iff.mpr ⟨c, ih c child (holds.child child) (by omega), rfl⟩
      rw [holds.treeWithin_succ,
        Kind.traverse_eq_self (fun p mem => below p (Kind.mem_slots_of_needed mem)) below]
      cases T
      rfl

theorem Holds.tree_eq (holds : s.Holds T) : s.tree T.tag = .ok T := by
  have bound := holds.height_le
  exact holds.treeWithin_gaps (by omega)

/-! ## Postorder -/

def postorderWithin (s : Store) : Nat → Nat → Except Fault (List Nat)
  | 0, _ => throw .cyclic
  | fuel + 1, id => do
    let below ← (← s.children (some id)).mapM (s.postorderWithin fuel)
    return below.flatten ++ [id]

/-- The nodes below a node, children before parents; a shared node comes once for each place. -/
def postorder (s : Store) (id : Nat) : Except Fault (List Nat) :=
  s.postorderWithin (s.size + 1) id

theorem Holds.postorderWithin_eq (holds : s.Holds T) {fuel : Nat} (enough : T.height ≤ fuel) :
    s.postorderWithin fuel T.tag = .ok T.postorder := by
  induction T using Tree.induction generalizing fuel with
  | step T ih =>
    cases fuel with
    | zero =>
      have := T.height_pos
      omega
    | succ fuel =>
      have each (list : List (Tree Nat Name)) (inside : ∀ c ∈ list, c ∈ T.children) :
          (list.map Tree.tag).mapM (s.postorderWithin fuel) = .ok (list.map Tree.postorder) := by
        induction list with
        | nil => rfl
        | cons c rest ihr =>
          have child := inside c List.mem_cons_self
          have lower := Tree.height_lt child
          rw [List.map_cons, List.mapM_cons, bind_of_eq (ih c child (holds.child child) (by omega)),
            bind_of_eq (ihr fun d mem => inside d (List.mem_cons_of_mem c mem))]
          rfl
      unfold postorderWithin
      rw [bind_of_eq holds.children, bind_of_eq (each T.children fun _ mem => mem), T.postorder_eq,
        List.flatMap_def]
      rfl

theorem Holds.postorder_eq (holds : s.Holds T) : s.postorder T.tag = .ok T.postorder := by
  have bound := holds.height_le
  exact holds.postorderWithin_eq (by omega)

/-! ## Copies -/

structure IsAcyclic (s : Store) (root : Nat) : Prop where
  readable : ∀ x, s.Reaches root x → ∃ children, s.children (some x) = .ok children
  acyclic : ∀ x, s.Reaches root x → ¬ Relation.TransGen s.IsChild x x
  /-- No list is longer than a range can count. -/
  fit : ∀ x, s.Reaches root x → ∀ k, s.kind (some x) = .ok k → ∀ range, .inr range ∈ k.parts →
    range.len ≤ maxListLength

theorem Holds.isAcyclic (holds : s.Holds T) (fit : T.ListsFit) : s.IsAcyclic T.tag where
  readable x reached := by
    obtain ⟨u, below, rfl⟩ := holds.mem_of_reaches reached
    exact ⟨_, (holds.subtree below).children⟩
  acyclic _ := holds.acyclic
  fit := holds.listsFit_iff.mp fit

/-- The node `y` of the later store is a copy of the node `x` of the earlier, made in the given pairs. -/
structure Replicates (s s' : Store) (x y : Nat) (pairs : List (Nat × Nat)) : Prop where
  /-- What was there before stays as it is. -/
  nodes : ∀ id, id < s.size → s'.node? (some id) = s.node? (some id)
  lists : ∃ more, s'.lists = s.lists ++ more
  /-- With their spans in the places of their indices the two trees are equal. -/
  same : ∃ T C, s.tree x = .ok T ∧ s'.tree y = .ok C ∧
    (C.relabel fun id => s'.span (some id)) = T.relabel fun id => s.span (some id)
  /-- No node of the copy was there before, or is in it at two places. -/
  new : ∀ id, s'.Reaches y id → s.size ≤ id
  apart : s'.IsTree y
  /-- The new nodes are those of the copy, in order, and each was made for a node of the original. -/
  copies : pairs.map Prod.snd = List.range' s.size (s'.size - s.size)
  originals : s.postorder x = .ok (pairs.map Prod.fst)
  alike : ∀ pair ∈ pairs, ∃ n n', s.node? (some pair.1) = some n ∧ s'.node? (some pair.2) = some n' ∧
    n'.span = n.span ∧ n'.kind.label = n.kind.label

theorem Evolves.node?_eq {s s' : Store} (h : s.Evolves (fun _ => False) s') {x : Nat}
    (old : x < s.size) : s'.node? (some x) = s.node? (some x) := by
  have found : s.node? (some x) = some s.nodes[x] := Array.getElem?_eq_getElem old
  rw [found]
  exact h.kept found id

theorem Duplicate.replicates {s s' : Store} {T C : Tree Nat Name} {pairs : List (Nat × Nat)}
    (h : Duplicate s s' (some T) (some C) pairs) (holds : s.Holds T) :
    Replicates s s' T.tag C.tag pairs := by
  have copied := h.holds C rfl
  have olds : pairs.map Prod.fst = T.postorder := by simpa using h.olds
  have news : pairs.map Prod.snd = C.postorder := by simpa using h.news
  have alike : ∀ pair ∈ pairs, ∃ n n', s.node? (some pair.1) = some n ∧
      s'.node? (some pair.2) = some n' ∧ n'.span = n.span ∧ n'.kind.label = n.kind.label := by
    intro pair mem
    obtain ⟨n, n', left, right, same⟩ := h.twins pair mem
    have inside : pair.1 ∈ T.ids := by
      rw [← T.postorder_perm.mem_iff, ← olds]
      exact List.mem_map_of_mem mem
    rw [h.grown.node?_eq (holds.lt_size inside)] at left
    exact ⟨n, n', left, right, same⟩
  have spans : (C.postorder.map fun id => s'.span (some id)) =
      T.postorder.map fun id => s.span (some id) := by
    rw [← olds, ← news, List.map_map, List.map_map]
    refine List.map_congr_left fun pair mem => ?_
    obtain ⟨n, n', left, right, same, -⟩ := alike pair mem
    have old := span_eq_ok_iff.mpr ⟨n, left, rfl⟩
    have new := span_eq_ok_iff.mpr ⟨n', right, same⟩
    exact new.trans old.symm
  refine ⟨fun id => h.grown.node?_eq, h.grown.lists, ⟨T, C, holds.tree_eq, copied.tree_eq, ?_⟩,
    fun id reached => ?_, copied.isTree (h.distinct C rfl), h.range, ?_, alike⟩
  · exact Tree.relabel_eq_of_postorder (Option.some.inj h.alike) spans
  · obtain ⟨u, below, rfl⟩ := copied.mem_of_reaches reached
    exact (h.fresh C rfl u.tag (List.mem_map_of_mem below)).1
  · rw [olds]
    exact holds.postorder_eq

/-- There are indices for all nodes and list entries of the tree, though they were there before. -/
def HasRoomFor (s : Store) (T : Tree Nat Name) : Prop :=
  s.size + T.ids.length ≤ maxIndex ∧ s.lists.size + T.entries.length ≤ maxIndex

theorem Duplicate.isFull_iff {s s' : Store} {T : Tree Nat Name} {copy : Tree.Part Nat Name}
    {pairs : List (Nat × Nat)} (h : Duplicate s s' (some T) copy pairs) :
    s'.IsFull ↔ ¬ s.HasRoomFor T := by
  rw [IsFull, HasRoomFor, h.size_eq, h.lists_size_eq]
  omega

end Store

namespace Sample

/-- The store of `[a, , a](b, f(b))` where `a` and `b` are one node each at two places. -/
def sharingStore : Store where
  nodes := #[
    ⟨.ident 1, ⟨1, 2⟩⟩, ⟨.array ⟨0, 3⟩, ⟨0, 8⟩⟩, ⟨.ident 2, ⟨9, 10⟩⟩, ⟨.ident 3, ⟨12, 13⟩⟩,
    ⟨.call (some 3) ⟨3, 1⟩, ⟨12, 16⟩⟩, ⟨.call (some 1) ⟨4, 2⟩, ⟨0, 17⟩⟩]
  lists := #[some 0, none, some 0, some 2, some 2, some 4]

@[inherit_doc sharingStore]
def sharingTree : Tree Nat Name :=
  match sharingStore.tree 5 with
  | .ok T => T
  | .error _ => .node 5 .null

end Sample

example : (match Sample.sharingStore.deepCopy (some 5) with
    | .ok (copied, _) => copied.pairs
    | .error _ => []) =
      [(0, 6), (0, 7), (1, 8), (2, 9), (3, 10), (2, 11), (4, 12), (5, 13)] := by
  decide +kernel

namespace Sample

/-- A name, and above it thirty-one sums that each have the node before them on both sides. -/
def doublingStore : Store where
  nodes := #[⟨.ident 1, ⟨0, 0⟩⟩] ++
    (Array.range 31).map fun k => ⟨.binary .add (some k) (some k), ⟨0, 0⟩⟩

def doublingTree : Nat → Tree Nat Name
  | 0 => .node 0 (.ident 1)
  | k + 1 => .node (k + 1) (.binary .add (some (doublingTree k)) (some (doublingTree k)))

theorem tag_doublingTree (k : Nat) : (doublingTree k).tag = k := by
  cases k <;> rfl

theorem children_doublingTree (k : Nat) :
    (doublingTree (k + 1)).children = [doublingTree k, doublingTree k] :=
  rfl

theorem doubling_holds {k : Nat} (bound : k < 32) : doublingStore.Holds (doublingTree k) := by
  induction k with
  | zero => decide +kernel
  | succ k ih =>
    have here : ∀ k < 31, doublingStore.shape (k + 1) = .ok (.binary .add (some k) (some k)) := by
      decide +kernel
    refine Store.holds_iff.mpr ⟨?_, fun c child => ?_⟩
    · refine (here k (by omega)).trans ?_
      rw [doublingTree]
      simp [Tree.shape, Tree.kind, Kind.map, tag_doublingTree]
    · rw [children_doublingTree] at child
      obtain rfl : c = doublingTree k := by simpa using child
      exact ih (by omega)

theorem doubling_listsFit (k : Nat) : (doublingTree k).ListsFit := by
  induction k with
  | zero => decide
  | succ k ih =>
    intro u below list mem
    rcases Tree.mem_subtrees_iff.mp below with rfl | ⟨c, child, inside⟩
    · simp [doublingTree, Tree.kind, Kind.parts] at mem
    · rw [children_doublingTree] at child
      obtain rfl : c = doublingTree k := by simpa using child
      exact ih u inside list mem

theorem length_ids_doublingTree (k : Nat) : (doublingTree k).ids.length + 1 = 2 ^ (k + 1) := by
  induction k with
  | zero => rfl
  | succ k ih =>
    rw [Tree.ids_eq, children_doublingTree, Nat.pow_succ, ← ih]
    simp only [List.length_cons, List.flatMap_cons, List.flatMap_nil, List.length_append,
      List.length_nil]
    omega

end Sample

end BigLower
