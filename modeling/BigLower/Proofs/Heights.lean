import BigLower.Proofs.Reading
import Mathlib.Data.Finset.Card
import Mathlib.Data.Finset.Range
import Mathlib.Data.List.MinMax
import Mathlib.Order.Nat

/-! # Heights

A tree that a store holds may have one node at several places. No node is below
itself, though, so no path in the tree is longer than the store. Recursions that
follow such paths need no more steps than the height of the tree.
-/

namespace BigLower

namespace Tree

variable {α ν : Type}

def height : Tree α ν → Nat :=
  fold fun _ below => below.foldr max 0 + 1

theorem height_eq (T : Tree α ν) : T.height = (T.children.map height).foldr max 0 + 1 := by
  unfold height
  rw [fold_eq]

theorem height_pos (T : Tree α ν) : 0 < T.height := by
  rw [height_eq]
  omega

theorem height_lt {T c : Tree α ν} (child : c ∈ T.children) : c.height < T.height := by
  have below : c.height ≤ (T.children.map height).foldr max 0 :=
    List.le_max_of_le (List.mem_map_of_mem child) (Nat.le_refl _)
  rw [height_eq T]
  omega

theorem height_le {T : Tree α ν} {n : Nat} (bound : ∀ c ∈ T.children, c.height < n)
    (pos : 0 < n) : T.height ≤ n := by
  have below : (T.children.map height).foldr max 0 ≤ n - 1 := by
    refine List.max_le_of_forall_le _ _ fun m mem => ?_
    obtain ⟨c, child, rfl⟩ := List.mem_map.mp mem
    have := bound c child
    omega
  rw [height_eq]
  omega

end Tree

namespace Store

variable {s : Store} {T U : Tree Nat Name}

theorem eq_of_map_eq {α β : Type} {f : α → β} {list list' : List α}
    (inj : ∀ a ∈ list, ∀ b ∈ list', f a = f b → a = b) (same : list.map f = list'.map f) :
    list = list' := by
  induction list generalizing list' with
  | nil =>
    cases list' with
    | nil => rfl
    | cons => cases same
  | cons a rest ih =>
    cases list' with
    | nil => cases same
    | cons b rest' =>
      obtain ⟨first, later⟩ := List.cons.inj same
      rw [inj a List.mem_cons_self b List.mem_cons_self first,
        ih (fun a mem b mem' => inj a (List.mem_cons_of_mem _ mem) b (List.mem_cons_of_mem _ mem'))
          later]

theorem Holds.eq_of_tag (holds : s.Holds T) (holds' : s.Holds U) (tag : T.tag = U.tag) : T = U := by
  induction T using Tree.induction generalizing U with
  | step T ih =>
    have shapes : T.shape = U.shape := by
      have both := holds.top.symm.trans (tag ▸ holds'.top)
      exact Except.ok.inj both
    have slots : T.kind.slots = U.kind.slots := by
      have tags : T.kind.slots.map (Option.map Tree.tag) = U.kind.slots.map (Option.map Tree.tag) := by
        rw [← Kind.slots_map, ← Kind.slots_map]
        exact congrArg Kind.slots shapes
      refine eq_of_map_eq (fun a mem b mem' same => ?_) tags
      cases a with
      | none =>
        cases b with
        | none => rfl
        | some d => cases same
      | some c =>
        cases b with
        | none => cases same
        | some d =>
          have child : c ∈ T.children := Tree.mem_children_iff.mpr mem
          have child' : d ∈ U.children := Tree.mem_children_iff.mpr mem'
          exact congrArg some
            (ih c child (holds.child child) (holds'.child child') (Option.some.inj same))
    have kinds : T.kind.map id (List.map id) = U.kind.map id (List.map id) :=
      Kind.map_eq_of_slots shapes (by rw [slots])
    have same (k : TreeKind) : k.map id (List.map id) = k := by
      cases k <;> simp [Kind.map]
    rw [same, same] at kinds
    obtain ⟨x, k⟩ := T
    obtain ⟨y, k'⟩ := U
    cases tag
    cases kinds
    rfl

/-- No node of a held tree is below itself. -/
theorem Holds.tag_not_mem_child (holds : s.Holds T) {c : Tree Nat Name} (child : c ∈ T.children) :
    T.tag ∉ c.ids := by
  intro mem
  obtain ⟨u, below, tag⟩ := List.mem_map.mp mem
  have same := ((holds.child child).subtree below).eq_of_tag holds tag
  subst same
  have shorter := Tree.length_subtrees_lt child
  have longer := Tree.length_subtrees_le below
  omega

/-- No path in a held tree is longer than the store. -/
theorem Holds.height_le (holds : s.Holds T) : T.height ≤ s.size := by
  have card : T.height ≤ T.ids.toFinset.card := by
    induction T using Tree.induction with
    | step T ih =>
      apply Tree.height_le
      · intro c child
        have below := ih c child (holds.child child)
        have inside : insert T.tag c.ids.toFinset ⊆ T.ids.toFinset := by
          intro x mem
          rcases Finset.mem_insert.mp mem with rfl | mem
          · exact List.mem_toFinset.mpr T.tag_mem_ids
          · exact List.mem_toFinset.mpr (Tree.mem_ids_of_child child (List.mem_toFinset.mp mem))
        have outside : T.tag ∉ c.ids.toFinset := fun mem =>
          holds.tag_not_mem_child child (List.mem_toFinset.mp mem)
        have larger := Finset.card_le_card inside
        rw [Finset.card_insert_of_notMem outside] at larger
        omega
      · exact Finset.card_pos.mpr ⟨T.tag, List.mem_toFinset.mpr T.tag_mem_ids⟩
  have inside : T.ids.toFinset ⊆ Finset.range s.size := by
    intro x mem
    exact Finset.mem_range.mpr (holds.lt_size (List.mem_toFinset.mp mem))
  have bound := Finset.card_le_card inside
  rw [Finset.card_range] at bound
  omega

end Store

end BigLower
