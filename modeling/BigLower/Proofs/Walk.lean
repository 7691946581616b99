import BigLower.Proofs.MemberCalls

/-! # The walk over a tree

The walk over a tree that the store holds, and of which no node was visited
before, cannot fault. With every faithful judge it leads to the same state, in
which the plan was followed along the tour and the store holds the lowered tree.
Compound assignments and member calls are lowered on the way up.
-/

namespace BigLower

namespace Setup

variable {τ : Type} [Naming τ] {C : Setup} {names : τ} {q q₁ q' : Pass τ} {P : Plan}
  {T : Tree Nat Name} {enclosing : Slot} {fuel : Nat}

/-! ## Compound assignments -/

theorem enter_assign (h : C.Progress names q P) (ready : C.Ready q P T) {op : AssignOp}
    {target value : Tree.Part Nat Name} (assign : T.kind = .assign op target value)
    {method : String} (found : op.method? = some method) (enclosing : Slot) :
    C.Runs (fun judge => (C.engine judge).enter enclosing T.tag) q
      (if value.any (Tree.isBig (C.policy.evidence P)) then
        .compound method (target.map Tree.tag) (value.map Tree.tag) else .below) q := by
  obtain ⟨range, span, here, -⟩ := Store.shape_tree_iff.mp ready.holds.top
  rw [assign] at here
  have inside : ∀ u, some u ∈ [value] → u ∈ C.tree.subtrees := fun u mem =>
    (ready.children (Tree.child_of_assign assign (List.mem_cons_of_mem target mem))).below
  have asked := Runs.someBig h inside
  rw [List.any_cons, List.any_nil, Bool.or_false] at asked
  exact .enter (ready.untouched _ T.tag_mem_ids) here (.enterNode_assign found asked)

/-- Nothing is left to do below a lowered assignment: copies are as far as their originals. -/
theorem CompoundLowered.finished {q₂ : Pass τ} {P₁ : Plan} {op : AssignOp} {method : String}
    {target value : Tree.Part Nat Name} {f : Tree Nat Name → Tree Nat Name} {T' : Tree Nat Name}
    (ready : C.Ready q P T) (assign : T.kind = .assign op target value)
    (forest : C.ForestDone names q q₁ T.children f) (start : C.store.size ≤ q₁.store.size)
    (lowered : C.CompoundLowered names q₁ q₂ P₁ T enclosing method (target.map f) (value.map f) T') :
    ∀ v ∈ T'.subtrees, v.tag ≠ T.tag → C.Finished q₂ v := by
  obtain ⟨property, o, m, call, copy, rfl, -, -, copied, added, -, new, -⟩ := lowered.shape
  have old := ready.lt_size
  have fresh {x : Nat} (mem : x ∈ [o, m, call] ++ copy.toList.flatMap Tree.ids) : C.store.size ≤ x :=
    Nat.le_trans start (new x mem)
  have walked {part : Tree.Part Nat Name} (mem : part ∈ [target, value]) :
      ∀ D ∈ part.map f, ∀ v ∈ D.subtrees, C.Finished q₂ v := by
    intro D here v below
    obtain ⟨c, rfl, rfl⟩ := Option.map_eq_some_iff.mp here
    have child := Tree.child_of_assign assign mem
    have own := List.mem_map_of_mem (f := Tree.tag) below
    have bound := (forest.holds c child).lt_size own
    have other : v.tag ≠ T.tag := fun same => by
      rcases forest.fresh c child _ own with original | later
      · exact Tree.tag_not_mem_child ready.distinct child (same ▸ original)
      · omega
    refine (forest.finished c child v below).of_marks ?_ id rfl
    simp [marks, lowered.replaced _ bound, lowered.settled _ bound, beq_false_of_ne other]
  have first := walked List.mem_cons_self
  intro v deep other
  rcases Tree.mem_subtrees_iff.mp deep with rfl | ⟨d, child, inside⟩
  · exact (other rfl).elim
  rw [Tree.children_loweredAssign] at child
  rcases List.mem_append.mp child with here | here
  · exact first d (Option.mem_toList.mp here) v inside
  cases List.mem_singleton.mp here
  rcases Tree.mem_subtrees_iff.mp inside with rfl | ⟨d, child, deeper⟩
  · exact .inr ⟨fresh (by simp [Tree.tag]), .inl added⟩
  rw [Tree.children_of_call rfl] at child
  rcases List.mem_cons.mp child with rfl | arg
  · obtain ⟨own, simple⟩ := Tree.isSimple_of_libraryMember deeper
    refine .inr ⟨fresh (List.mem_append_left _ ?_), .inr simple⟩
    rcases own with same | same <;> simp [same]
  · rcases List.mem_pair.mp (show some d ∈ [copy, value.map f] by simpa using arg) with rfl | here
    · obtain ⟨D, here, same⟩ := Option.map_eq_some_iff.mp copied.symm
      obtain ⟨v₀, below, alike⟩ := Tree.exists_relabelled same.symm deeper
      refine (first D here v₀ below).of_marks ?_ (fun _ => fresh ?_) ?_
      · have tags := congrArg Tree.tag alike
        rwa [Tree.tag_relabel, Tree.tag_relabel] at tags
      · refine List.mem_append_right _ ?_
        rw [Option.toList_some, List.flatMap_singleton]
        exact List.mem_map_of_mem deeper
      · rw [← Tree.isSimple_relabel (marks q₂), alike, Tree.isSimple_relabel]
    · exact walked (List.mem_cons_of_mem _ List.mem_cons_self) d here.symm v deeper

/-- A lowered assignment is done when its parts were walked over before. -/
theorem CompoundLowered.done {q₂ : Pass τ} {P₁ : Plan} {op : AssignOp} {method : String}
    {target value : Tree.Part Nat Name} {f : Tree Nat Name → Tree Nat Name} {T' : Tree Nat Name}
    (ready : C.Ready q P T) (assign : T.kind = .assign op target value)
    (found : op.method? = some method) (forest : C.ForestDone names q q₁ T.children f)
    (start : C.store.size ≤ q₁.store.size)
    (lowered : C.CompoundLowered names q₁ q₂ P₁ T enclosing method (target.map f) (value.map f) T') :
    C.Done names q q₂ T T' := by
  obtain ⟨property, o, m, call, copy, rfl, spells, alike, -, -, once, new, filled⟩ := lowered.shape
  have size := forest.grown.size_le
  have old := ready.lt_size
  have outside : T.tag ∉ T.children.flatMap Tree.ids := Tree.tag_not_mem_below ready.distinct
  have held {x : Nat} (mem : x ∈ T.children.flatMap fun c => (f c).ids) : x < q₁.store.size := by
    obtain ⟨c, child, inside⟩ := List.mem_flatMap.mp mem
    exact (forest.holds c child).lt_size inside
  have ids : (Tree.loweredAssign T.tag C.library.library property o m call (target.map f) copy
      (value.map f)).ids.Perm (T.tag :: ((T.children.flatMap fun c => (f c).ids) ++
        ([o, m, call] ++ copy.toList.flatMap Tree.ids))) := by
    rw [Tree.children_of_assign assign]
    exact Tree.ids_loweredAssign_map
  have marked : q₂.facts.isReplaced (some T.tag) = true := by
    rw [lowered.replaced T.tag (by omega)]
    simp
  refine ⟨?_, lowered.holds, ids.nodup_iff.mpr ?_, fun x mem => ?_, fun x later bound => ?_, ?_,
    fun x bound away => ?_, fun x bound => ?_, forest.later.trans lowered.later, fun none => ?_,
    lowered.finished ready assign forest start⟩
  · exact (forest.grown.mono fun x _ => Tree.mem_ids_of_below).trans
      (lowered.grown.mono fun x _ same => same ▸ T.tag_mem_ids)
  · refine List.nodup_cons.mpr ⟨fun mem => ?_, List.nodup_append.mpr ⟨forest.distinct, once, ?_⟩⟩
    · rcases List.mem_append.mp mem with here | copied
      · rcases forest.mem_or_new here with original | later
        · exact outside original
        · omega
      · have := new _ copied
        omega
    · rintro x here _ copied rfl
      have := held here
      have := new _ copied
      omega
  · rcases List.mem_cons.mp (ids.mem_iff.mp mem) with rfl | mem
    · exact .inl T.tag_mem_ids
    · rcases List.mem_append.mp mem with here | copied
      · exact (forest.mem_or_new here).imp_left Tree.mem_ids_of_below
      · exact .inr (Nat.le_trans size (new x copied))
  · refine ids.mem_iff.mpr (List.mem_cons_of_mem _ ?_)
    by_cases early : x < q₁.store.size
    · exact List.mem_append_left _ (forest.filled x later early)
    · exact List.mem_append_right _ (filled x (Nat.le_of_not_lt early) bound)
  · refine .compound f assign found spells marked (fun x mem => ?_) (fun c mem => ?_) alike
      fun D here x inside => ?_
    · exact Nat.le_trans start (new x (List.mem_append_left _ mem))
    · have child := Tree.child_of_assign assign mem
      refine (forest.lowers c child).mono lowered.later.spelling (fun x inside => ?_)
        fun x inside => lowered.references x ((forest.holds c child).lt_size inside)
      have other : x ≠ T.tag := fun same =>
        Tree.tag_not_mem_child ready.distinct child (same ▸ inside)
      have bound := (ready.children child).holds.lt_size inside
      rw [lowered.replaced x (by omega), beq_false_of_ne other, Bool.false_or]
    · have listed : x ∈ copy.toList.flatMap Tree.ids :=
        List.mem_flatMap.mpr ⟨D, Option.mem_toList.mpr here, inside⟩
      exact Nat.le_trans start (new x (List.mem_append_right _ listed))
  · have other : x ≠ T.tag := fun same => away (same ▸ T.tag_mem_ids)
    obtain ⟨replaced, settled⟩ :=
      forest.flags x bound fun mem => away (Tree.mem_ids_of_below mem)
    rw [lowered.replaced x (by omega), lowered.settled x (by omega), beq_false_of_ne other]
    exact ⟨replaced, settled⟩
  · exact (lowered.references x (by omega)).trans (forest.references x bound)
  · simp [none _ T.tag_mem_ids] at marked

theorem Progress.pend (h : C.Progress names q P) (pending : List Nat) :
    C.Progress names q { P with pending } :=
  ⟨h.grown, h.interned, h.fates, h.references, h.unreferenced, h.declarations, h.replaced,
    h.tainted, h.bindings, h.blank, h.counts⟩

/-! ## Kind by kind -/

section Cases

variable (walks : ∀ c ∈ T.children, C.Walks names fuel c) (h : C.Progress names q P)
  (ready : C.Ready q P T)

include walks h ready

theorem walk_idle (literal : ∀ digits, T.kind ≠ .bigInt digits)
    (call : ∀ callee args, T.kind ≠ .call callee args) (idle : T.kind.judged = []) :
    C.WalksFrom names (fuel + 1) q P enclosing T := by
  have small : T.hasBigOperand (C.policy.evidence P) = false := by simp [Tree.hasBigOperand, idle]
  refine walk_kept walks h ready (C.policy.enter_of_not enclosing ?_ ?_)
    (.enter_idle (ready.untouched _ T.tag_mem_ids) ready.holds literal call idle) literal call
  · unfold Tree.isLoweredOnEntry
    split
    · exact (literal _ ‹_›).elim
    · exact (call _ _ ‹_›).elim
    · exact small
    · exact small
    · rfl
  · unfold Tree.isPostponed
    split
    · exact small
    · rfl

theorem walk_plainAssign {op : AssignOp} {target value : Tree.Part Nat Name}
    (assign : T.kind = .assign op target value) {method : String} (found : op.method? = some method)
    (small : value.any (Tree.isBig (C.policy.evidence P)) = false) :
    C.WalksFrom names (fuel + 1) q P enclosing T := by
  have entered := enter_assign h ready assign found enclosing
  rw [small] at entered
  refine walk_kept walks h ready (C.policy.enter_of_not enclosing ?_ ?_) entered (by simp [assign])
    (by simp [assign])
  · simp [Tree.isLoweredOnEntry, assign]
  · simp [Tree.isPostponed, Tree.hasBigOperand, assign, Kind.judged, found, small]

theorem walk_compound {op : AssignOp} {target value : Tree.Part Nat Name}
    (assign : T.kind = .assign op target value) {method : String} (found : op.method? = some method)
    (big : value.any (Tree.isBig (C.policy.evidence P)) = true) :
    C.WalksFrom names (fuel + 1) q P enclosing T := by
  have entered := enter_assign h ready assign found enclosing
  rw [big] at entered
  have distinct := ready.distinct
  have old := ready.lt_size
  have planned : C.policy.enter P T enclosing = { P with pending := T.tag :: P.pending } := by
    simp [Policy.enter, Tree.isLoweredOnEntry, Tree.isPostponed, Tree.hasBigOperand, assign,
      Kind.judged, found, big]
  have waiting : ∀ c ∈ T.children, C.Ready q { P with pending := T.tag :: P.pending } c := by
    intro c child
    have before := ready.children child
    refine ⟨before.below, before.holds, before.untouched, fun x inside mem => ?_⟩
    rcases List.mem_cons.mp mem with rfl | mem
    · exact Tree.tag_not_mem_child distinct child inside
    · exact before.waiting x inside mem
  obtain ⟨q₁, f, below, h₁, forest⟩ := walks_forest (T.inner enclosing) T.children walks
    (h.pend (T.tag :: P.pending)) waiting (Tree.nodup_children distinct)
  have size := forest.grown.size_le
  have child {c : Tree Nat Name} (mem : some c ∈ [target, value]) := Tree.child_of_assign assign mem
  have tags {part : Tree.Part Nat Name} (mem : part ∈ [target, value]) :
      (part.map f).map Tree.tag = part.map Tree.tag := by
    cases part with
    | none => rfl
    | some c => exact congrArg some (forest.lowers c (child mem)).tag_eq
  have here {D : Tree Nat Name} (mem : some D ∈ [target.map f, value.map f]) :
      ∃ c, c ∈ T.children ∧ f c = D := by
    obtain ⟨c, inside, same⟩ := Tree.some_mem_map.mp (show some D ∈ [target, value].map _ from mem)
    exact ⟨c, child inside, same⟩
  have first {D : Tree Nat Name} (mem : D ∈ target.map f) : some D ∈ [target.map f, value.map f] := by
    rw [mem]
    exact List.mem_cons_self
  obtain ⟨q₂, T', run, lowered⟩ := runs_lowerCompound h₁ ready.below assign found
    (tags List.mem_cons_self) (tags (List.mem_cons_of_mem _ List.mem_cons_self))
    (fun D mem => by
      obtain ⟨c, inside, rfl⟩ := here mem
      exact forest.holds c inside)
    (fun D mem tag => by
      obtain ⟨c, inside, rfl⟩ := here mem
      rcases forest.fresh c inside _ tag with original | later
      · exact Tree.tag_not_mem_child distinct inside original
      · omega)
    (fun D mem => by
      obtain ⟨c, inside, rfl⟩ := here (first mem)
      refine (forest.lowers c inside).listsFit fun u deep => C.fit u ?_
      exact Tree.subtrees_trans (ready.children inside).below deep) (forest.unmarked ready) enclosing
  have done := lowered.done ready assign found forest h₁.grown.size_le
  refine ⟨_, T', .lowerWithin_compound old entered (.descend ready.holds below) run, ?_, done.settle⟩
  have pending : T.tag ∈ (C.policy.plan (T.children.flatMap (Tree.tour · (T.inner enclosing)))
      { P with pending := T.tag :: P.pending }).pending :=
    C.policy.pending_subset_plan _ _ List.mem_cons_self
  rw [Policy.plan_tour, planned, Policy.leave, if_pos (.inl pending)]
  exact lowered.progress.settle (Nat.lt_of_lt_of_le old done.grown.size_le)

end Cases

/-! ## The whole walk -/

/-- A subtree of the tree can be walked over with enough fuel. -/
theorem walks (names : τ) (below : T ∈ C.tree.subtrees) {fuel : Nat}
    (enough : T.ids.length + 2 ≤ fuel) : C.Walks names fuel T := by
  induction T using Tree.induction generalizing fuel with
  | step T ih =>
    intro q P enclosing h ready
    obtain ⟨fuel, rfl⟩ : ∃ n, fuel = n + 3 := ⟨fuel - 3, by
      have := List.length_pos_of_mem T.tag_mem_ids
      omega⟩
    -- Two more levels are left for the member and the object that a rule may add.
    have walks : ∀ c ∈ T.children, C.Walks names (fuel + 2) c := fun c child => by
      have shorter := Tree.length_ids_lt child
      exact ih c child (Tree.subtrees_trans below (Tree.child_mem_subtrees child)) (by omega)
    cases kind : T.kind with
    | bigInt digits => exact walk_literal h ready kind
    | call callee args =>
      obtain ⟨c, rfl⟩ := Option.isSome_iff_exists.mp (C.callees T below callee args kind)
      cases constructor : c.isConstructor C.library.constructor with
      | true => exact walk_constructor h ready walks kind constructor
      | false => exact walk_call walks h ready kind constructor
    | binary op left right | unary op operand =>
      cases method : op.method? with
      | none =>
        exact walk_idle walks h ready (by simp [kind]) (by simp [kind])
          (by simp [kind, Kind.judged, method])
      | some text => exact walk_operation h ready walks (by rw [kind, Kind.operation?, method]; rfl)
    | assign op target value =>
      cases method : op.method? with
      | none =>
        exact walk_idle walks h ready (by simp [kind]) (by simp [kind])
          (by simp [kind, Kind.judged, method])
      | some text =>
        cases big : value.any (Tree.isBig (C.policy.evidence P)) with
        | true => exact walk_compound walks h ready kind method big
        | false => exact walk_plainAssign walks h ready kind method big
    | _ =>
      exact walk_idle walks h ready (by simp [kind]) (by simp [kind]) (by simp [kind, Kind.judged])

end Setup

end BigLower
