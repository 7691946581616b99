import BigLower.Proofs.Counting
import BigLower.Proofs.Frame
import Mathlib.Algebra.BigOperators.Group.List.Basic
import Mathlib.Algebra.GroupWithZero.Nat

/-! # How many nodes lowering adds

What a rule adds for a node: a member of the library, a string for the digits of a
literal, and for an assignment a call and a copy of the target as it is then. In a
lowered tree these are all the nodes that are not of the original.
-/

namespace BigLower

/-- How many nodes a rule adds, if it copies nothing. -/
def Rule.growth : Rule → Nat
  | literal => 3
  | constructor | binary | unary => 2
  | compoundAssign | methodCall => 0

def Kind.copyGrowth {ν σ ρ : Type} (size : σ → Nat) : Kind ν σ ρ → Nat
  | .assign _ target _ => 3 + size target
  | _ => 0

namespace Tree

variable {constructor : Name} {size : Nat → Nat} {R : Nat → Bool} {T u : Tree Nat Name}

def partSize (size : Nat → Nat) (part : Part Nat Name) : Nat :=
  part.elim 0 fun t => size t.tag

def growth (constructor : Name) (size : Nat → Nat) (T : Tree Nat Name) : Nat :=
  (T.rule? constructor).elim 0 Rule.growth + T.kind.copyGrowth (partSize size)

def totalGrowth (constructor : Name) (size : Nat → Nat) (marks : Nat → Bool)
    (T : Tree Nat Name) : Nat :=
  ((T.replaced marks).map (growth constructor size)).sum

theorem totalGrowth_eq (T : Tree Nat Name) : T.totalGrowth constructor size R =
    (if R T.tag then T.growth constructor size else 0) +
      (T.children.map (totalGrowth constructor size R)).sum := by
  have below : (((T.children.flatMap subtrees).filter fun u => R u.tag).map
      (growth constructor size)).sum = (T.children.map (totalGrowth constructor size R)).sum := by
    rw [List.filter_flatMap, List.map_flatMap, List.flatMap_def, List.sum_flatten, List.map_map]
    rfl
  rw [totalGrowth, replaced, subtrees_eq, List.filter_cons]
  split
  · rw [List.map_cons, List.sum_cons, below]
  · rw [below, Nat.zero_add]

theorem rule?_eq_none_iff : T.rule? constructor = none ↔ T.kind.isInert = true := by
  unfold rule?
  cases T.kind <;> simp [Kind.rule?, Kind.isInert]

theorem growth_of_isInert (inert : T.kind.isInert = true) : T.growth constructor size = 0 := by
  rw [growth, rule?_eq_none_iff.mpr inert]
  cases kind : T.kind <;> first | rfl | simp [kind, Kind.isInert] at inert

theorem totalGrowth_of_isInert (inert : ∀ u ∈ T.subtrees, u.kind.isInert = true) :
    T.totalGrowth constructor size R = 0 := by
  refine List.sum_eq_zero fun n mem => ?_
  obtain ⟨u, listed, rfl⟩ := List.mem_map.mp mem
  exact growth_of_isInert (inert u (List.mem_of_mem_filter listed))

theorem growth_of_operation {method : String} {operands : List (Part Nat Name)}
    (op : T.kind.operation? = some (method, operands)) : T.growth constructor size = 2 := by
  unfold growth rule?
  cases kind : T.kind with
  | binary | unary => rfl
  | _ => simp [kind, Kind.operation?] at op

theorem growth_of_call {callee : Part Nat Name} {args : List (Part Nat Name)}
    (call : T.kind = .call callee args) (plain : T.isConstructorCall constructor = false) :
    T.growth constructor size = 0 := by
  rw [isConstructorCall, call] at plain
  simp only at plain
  simp [growth, rule?, call, Kind.rule?, Kind.copyGrowth, plain, Rule.growth]

/-! ## Counting in lowered trees -/

/-- If a list has every number of an interval once and none behind, it has as many of them. -/
theorem countP_of_filled {ids : List Nat} {first last : Nat} (distinct : ids.Nodup)
    (bound : ∀ x ∈ ids, x < last) (filled : ∀ x, first ≤ x → x < last → x ∈ ids)
    (ordered : first ≤ last) : first + ids.countP (fun x => decide (first ≤ x)) = last := by
  have interval :
      (ids.filter fun x => decide (first ≤ x)).Perm (List.range' first (last - first)) := by
    refine (List.perm_ext_iff_of_nodup (distinct.filter _) List.nodup_range').mpr fun x => ?_
    rw [List.mem_filter, List.mem_range'_1, decide_eq_true_eq, Nat.add_sub_cancel' ordered]
    exact ⟨fun mem => ⟨mem.2, bound x mem.1⟩, fun within => ⟨filled x within.1 within.2, within.1⟩⟩
  rw [List.countP_eq_length_filter, interval.length_eq, List.length_range',
    Nat.add_sub_cancel' ordered]

variable {p : Nat → Bool}

theorem countP_ids (T : Tree Nat Name) : T.ids.countP p =
    (if p T.tag then 1 else 0) + (T.children.map fun c => c.ids.countP p).sum := by
  rw [ids_eq, List.countP_cons, List.countP_flatMap, Nat.add_comm]
  rfl

theorem countP_libraryCall {x o m : Nat} {library property : Name} {args : List (Part Nat Name)}
    {f : Tree Nat Name → Tree Nat Name} {count : Tree Nat Name → Nat}
    (each : ∀ c, some c ∈ args → (f c).ids.countP p = count c) :
    (node x (.call (some (libraryMember library property o m))
      (args.map (Option.map f)))).ids.countP p =
        [x, m, o].countP p + ((args.filterMap id).map count).sum := by
  have operands : (args.map (Option.map f)).filterMap id = (args.filterMap id).map f := by
    rw [List.filterMap_map, List.map_filterMap]
    rfl
  have counted : (args.filterMap id).map (fun c => (f c).ids.countP p) =
      (args.filterMap id).map count :=
    List.map_congr_left fun c listed => each c (by simpa using listed)
  rw [ids_of_call rfl, ids_libraryMember, operands, List.flatMap_map, ← List.cons_append,
    List.countP_append, List.countP_flatMap, ← counted]
  rfl

/-- Nothing is added in a callee that is taken over as the callee of a library call. -/
theorem countP_call {o m : Nat} {library property : Name} {callee : Tree Nat Name}
    {args : List (Part Nat Name)} {f : Tree Nat Name → Tree Nat Name}
    (kind : T.kind = .call (some callee) args) (inert : ∀ u ∈ callee.subtrees, u.kind.isInert = true)
    (each : ∀ c, some c ∈ args → (f c).ids.countP p = c.totalGrowth constructor size R) :
    (node T.tag (.call (some (libraryMember library property o m))
      (args.map (Option.map f)))).ids.countP p =
        [T.tag, m, o].countP p + (T.children.map (totalGrowth constructor size R)).sum := by
  rw [countP_libraryCall each, children_of_call kind, List.map_cons, List.sum_cons,
    totalGrowth_of_isInert inert, Nat.zero_add]

theorem length_of_relabel {β : Type} {g : Nat → β} {copy part : Part Nat Name}
    (same : copy.map (relabel g) = part.map (relabel g)) :
    (copy.toList.flatMap ids).length = (part.toList.flatMap ids).length := by
  have count (T : Tree Nat Name) : T.ids.length = (T.relabel g).ids.length := by
    simp [ids, subtrees_relabel]
  cases copy with
  | none =>
    rw [Option.map_eq_none_iff.mp same.symm]
  | some D =>
    obtain ⟨D', rfl, alike⟩ := Option.map_eq_some_iff.mp same.symm
    simp [count D, count D', alike]

/-- New in a lowered assignment are the copy of its target, three nodes, and what is new in its parts. -/
theorem countP_loweredAssign {β : Type} {g : Nat → β} {start x o m call : Nat}
    {library property : Name} {target copy value : Part Nat Name} {f : Tree Nat Name → Tree Nat Name}
    (old : x < start) (new : ∀ y ∈ [o, m, call], start ≤ y)
    (fresh : ∀ D ∈ copy, ∀ y ∈ D.ids, start ≤ y)
    (same : copy.map (relabel g) = (target.map f).map (relabel g)) :
    (loweredAssign x library property o m call (target.map f) copy (value.map f)).ids.countP
        (fun y => decide (start ≤ y)) =
      3 + ((target.map f).toList.flatMap ids).length +
        ((target.toList ++ value.toList).map fun c =>
          (f c).ids.countP fun y => decide (start ≤ y)).sum := by
  have added : [o, m, call].countP (fun y => decide (start ≤ y)) = 3 :=
    List.countP_eq_length.mpr fun y mem => decide_eq_true (new y mem)
  have copied : (copy.toList.flatMap ids).countP (fun y => decide (start ≤ y)) =
      ((target.map f).toList.flatMap ids).length := by
    rw [← length_of_relabel same]
    refine List.countP_eq_length.mpr fun y mem => ?_
    obtain ⟨D, here, inside⟩ := List.mem_flatMap.mp mem
    exact decide_eq_true (fresh D (Option.mem_toList.mp here) y inside)
  rw [ids_loweredAssign_map.countP_eq, List.countP_cons, List.countP_append, List.countP_append,
    copied, added, List.countP_flatMap, decide_eq_false (Nat.not_le.mpr old),
    if_neg Bool.false_ne_true, Nat.add_zero]
  exact Nat.add_comm _ _

namespace Lowers

variable {L : LibraryNames} {w : Spelling} {start : Nat} {B : Nat → Option Nat} {T' : Tree Nat Name}

/--
The nodes of a lowered tree that are not of the original are as many as were added,
where `size` tells the sizes of its subtrees.
-/
theorem countP_new (h : Lowers L w start R B T T') (old : ∀ x ∈ T.ids, x < start)
    (sizes : ∀ v ∈ T'.subtrees, size v.tag = v.ids.length) :
    T'.ids.countP (fun x => decide (start ≤ x)) = T.totalGrowth L.constructor size R := by
  have top {T : Tree Nat Name} (old : ∀ x ∈ T.ids, x < start) : ¬ start ≤ T.tag :=
    Nat.not_le.mpr (old _ T.tag_mem_ids)
  have older {T c : Tree Nat Name} (old : ∀ x ∈ T.ids, x < start) (child : c ∈ T.children) :
      ∀ x ∈ c.ids, x < start := fun x inside => old x (mem_ids_of_child child inside)
  induction h with
  | @literal T digits o m x kind own fresh =>
    have leaf : T.children = [] := by simp [children, kind, Kind.slots, Kind.parts]
    have growth : T.growth L.constructor size = 3 := by
      rw [Tree.growth, rule?, kind]
      rfl
    rw [totalGrowth_eq, leaf, if_pos own, growth]
    simp only [List.mem_cons, List.not_mem_nil, or_false, forall_eq_or_imp, forall_eq] at fresh
    show [T.tag, m, o, x].countP _ = _
    simp [top old, fresh]
  | @constructor T callee args o m f kind constructor own fresh parts ih =>
    have growth : T.growth L.constructor size = 2 := by
      simp [Tree.growth, rule?, kind, Kind.rule?, constructor, Rule.growth, Kind.copyGrowth]
    rw [countP_call kind (fun u => isInert_of_isConstructor constructor) fun c mem =>
        ih c mem (older old (child_of_arg kind mem)) fun v below =>
          sizes v (mem_subtrees_of_arg mem below), totalGrowth_eq, if_pos own, growth]
    simp only [List.mem_cons, List.not_mem_nil, or_false, forall_eq_or_imp, forall_eq] at fresh
    simp [top old, fresh]
  | @operation T method operands property o m f op spells own fresh parts ih =>
    rw [countP_libraryCall fun c mem => ih c mem (older old (child_of_operation op mem))
        fun v below => sizes v (mem_subtrees_of_arg mem below), totalGrowth_eq,
      children_of_operation op, if_pos own, growth_of_operation op]
    simp only [List.mem_cons, List.not_mem_nil, or_false, forall_eq_or_imp, forall_eq] at fresh
    simp [top old, fresh]
  | @compound T op target value copy method property o m call f kind found spells own new parts same
      fresh ih =>
    have growth : T.growth L.constructor size = 3 + partSize size target := by
      rw [Tree.growth, rule?, kind]
      exact Nat.zero_add _
    have place {c : Tree Nat Name} (child : c ∈ T.children) : f c ∈ (loweredAssign T.tag L.library
        property o m call (target.map f) copy (value.map f)).subtrees :=
      mem_subtrees_loweredAssign (children_of_assign kind ▸ child)
    have counted : (T.children.map fun c => (f c).ids.countP fun x => decide (start ≤ x)) =
        T.children.map (totalGrowth L.constructor size R) := by
      refine List.map_congr_left fun c child => ?_
      have mem : some c ∈ [target, value] := by
        simpa [mem_children_iff, kind, Kind.slots, Kind.parts] using child
      exact ih c mem (older old child) fun v below => sizes v (subtrees_trans (place child) below)
    have sized : ((target.map f).toList.flatMap ids).length = partSize size target := by
      cases target with
      | none => rfl
      | some t =>
        have mem : some t ∈ [some t, value] := List.mem_cons_self
        have sized := sizes (f t) (place (child_of_assign kind mem))
        rw [(parts t mem).tag_eq] at sized
        simpa [partSize] using sized.symm
    rw [totalGrowth_eq, if_pos own, growth, ← counted, children_of_assign kind, ← sized]
    exact countP_loweredAssign (old _ T.tag_mem_ids) new fresh same
  | @redirect T callee object args property property' f kind plain member math renames own parts ih =>
    have calls : callee.isConstructor L.math = true := by simp [isConstructor, isIdent, member, math]
    have growth : T.growth L.constructor size = 0 :=
      growth_of_call kind (by rw [isConstructorCall, kind]; exact plain)
    rw [countP_call kind (fun u => isInert_of_isConstructor calls) fun c mem =>
        ih c mem (older old (child_of_arg kind mem)) fun v below =>
          sizes v (mem_subtrees_of_arg mem below), totalGrowth_eq, if_pos own, growth]
    have below := older old (child_of_callee kind)
    have deeper := older below (child_of_object member)
    simp [top old, top below, top deeper]
  | @keep T f literal call own parts ih =>
    have growth : (if R T.tag then T.growth L.constructor size else 0) = 0 := by
      split
      · rename_i replaced
        obtain ⟨callee, args, kind⟩ := own replaced
        exact growth_of_call kind call
      · rfl
    have counted : (T.children.map fun c => (f c).ids.countP fun x => decide (start ≤ x)) =
        T.children.map (totalGrowth L.constructor size R) := by
      refine List.map_congr_left fun c child => ih c child (older old child) fun v below => ?_
      refine sizes v (mem_subtrees_of_child ?_ below)
      rw [children_mapChildren]
      exact List.mem_map_of_mem child
    rw [totalGrowth_eq, growth, countP_ids, children_mapChildren, List.map_map, ← counted,
      tag_mapChildren, decide_eq_false (top old)]
    rfl

end Lowers

end Tree

end BigLower
