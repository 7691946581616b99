import BigLower.Proofs.Forest

/-! # The walk on the way down

The walk over a node that is kept, and over one that becomes a library call when
it is entered: a literal, a call of the constructor, or an operation with a
big-integer operand.
-/

namespace BigLower

namespace Setup

variable {τ : Type} [Naming τ] {C : Setup} {names : τ} {q q₁ q' : Pass τ} {P : Plan}
  {T : Tree Nat Name} {enclosing : Slot} {fuel : Nat}

/-! ## Going below -/

theorem ForestDone.unmarked {f : Tree Nat Name → Tree Nat Name}
    (forest : C.ForestDone names q q₁ T.children f) (ready : C.Ready q P T) :
    q₁.facts.isReplaced (some T.tag) = false :=
  (forest.flags T.tag ready.lt_size (Tree.tag_not_mem_below ready.distinct)).1.trans
    (ready.untouched _ T.tag_mem_ids).1

/-- The walk over a node that is not changed on the way down, if it can be left. -/
theorem walk_below (walks : ∀ c ∈ T.children, C.Walks names fuel c) (h : C.Progress names q P)
    (ready : C.Ready q P T) (same : C.policy.enter P T enclosing = P)
    (entered : C.Runs (fun judge => (C.engine judge).enter enclosing T.tag) q .below q)
    (left : ∀ q₁ P₁ f, C.Progress names q₁ P₁ → T.tag ∉ P₁.pending →
      C.ForestDone names q q₁ T.children f →
      ∃ q' T', C.Runs (fun judge => (C.engine judge).leave enclosing T.tag) q₁ () q' ∧
        C.Progress names q' (C.policy.leave P₁ T enclosing) ∧ C.Done names q q' T T') :
    C.WalksFrom names (fuel + 1) q P enclosing T := by
  have distinct := ready.distinct
  have old := ready.lt_size
  obtain ⟨q₁, f, below, h₁, forest⟩ :=
    walks_forest _ T.children walks h (fun _ => ready.children) (Tree.nodup_children distinct)
  obtain ⟨q', T', leave, h', done⟩ := left q₁ _ f h₁
    (C.policy.not_mem_pending_below distinct (ready.waiting _ T.tag_mem_ids) _) forest
  refine ⟨_, T', .lowerWithin_below old entered (.descend ready.holds below) leave, ?_, done.settle⟩
  rw [Policy.plan_tour, same]
  exact h'.settle (Nat.lt_of_lt_of_le old done.grown.size_le)

/-- The walk over a node that is neither a literal nor a call, and to which no rule is applied. -/
theorem walk_kept (walks : ∀ c ∈ T.children, C.Walks names fuel c) (h : C.Progress names q P)
    (ready : C.Ready q P T) (same : C.policy.enter P T enclosing = P)
    (entered : C.Runs (fun judge => (C.engine judge).enter enclosing T.tag) q .below q)
    (literal : ∀ digits, T.kind ≠ .bigInt digits) (call : ∀ callee args, T.kind ≠ .call callee args) :
    C.WalksFrom names (fuel + 1) q P enclosing T := by
  have distinct := ready.distinct
  refine walk_below walks h ready same entered fun q₁ P₁ f h₁ waiting forest => ?_
  have unmarked := forest.unmarked ready
  have done : C.Done names q q₁ T (T.mapChildren f) := by
    refine forest.keep ready.holds distinct rfl rfl rfl (fun _ _ => ⟨rfl, rfl⟩) literal ?_ ?_
      fun _ => .refl q₁
    · unfold Tree.isConstructorCall
      cases kind : T.kind <;> first | rfl | exact (call _ _ kind).elim
    · intro marked
      simp [unmarked] at marked
  refine ⟨q₁, _, .leave_idle (T := T.mapChildren f) done.holds fun callee args same => ?_, ?_, done⟩
  · rw [Tree.kind_mapChildren] at same
    cases kind : T.kind with
    | call callee' args' => exact call _ _ kind
    | _ => simp [kind, Kind.map] at same
  · rw [C.policy.leave_of_not enclosing waiting fun _ => ?_]
    · exact h₁
    · unfold Tree.isBigMemberCall
      cases kind : T.kind <;> first | rfl | exact (call _ _ kind).elim

/-! ## Library calls -/

/-- A tree is done if its top has become a call and the arguments were walked over. -/
theorem Done.call {property : Name} {o m : Nat} {range : Range}
    {operands : List (Tree.Part Nat Name)} {f : Tree Nat Name → Tree Nat Name}
    (grown : q.store.Evolves (· ∈ T.ids) q'.store)
    (kind : q'.store.kind (some T.tag) = .ok (.call (some m) range))
    (list : q'.store.list range = .ok (operands.map (Option.map Tree.tag)))
    (member : q'.store.Holds (Tree.libraryMember C.library.library property o m))
    (parts : ∀ c, some c ∈ operands → q'.store.Holds (f c) ∧ (f c).tag = c.tag)
    (distinct : (T.tag :: m :: o :: (operands.filterMap id).flatMap fun c => (f c).ids).Nodup)
    (fresh : ∀ x ∈ m :: o :: (operands.filterMap id).flatMap fun c => (f c).ids,
      x ∈ T.ids ∨ q.store.size ≤ x)
    (filled : ∀ x, q.store.size ≤ x → x < q'.store.size →
      x ∈ m :: o :: (operands.filterMap id).flatMap fun c => (f c).ids)
    (flags : SameFlags T.ids q q') (references : SameReferences q q')
    (later : Naming.Grows q.names q'.names)
    (replaced : q'.facts.isReplaced (some T.tag) = true)
    (lowers : C.LowersTo names q' T
      (.node T.tag (.call (some (Tree.libraryMember C.library.library property o m))
        (operands.map (Option.map f)))))
    (added : ∀ x, x = o ∨ x = m → q'.facts.isSettled (some x) = true ∨ C.store.size ≤ x)
    (finished : ∀ c, some c ∈ operands → ∀ v ∈ (f c).subtrees, C.Finished q' v) :
    C.Done names q q' T (.node T.tag (.call
      (some (Tree.libraryMember C.library.library property o m)) (operands.map (Option.map f)))) := by
  have ids : (Tree.node T.tag (.call (some (Tree.libraryMember C.library.library property o m))
      (operands.map (Option.map f)))).ids =
        T.tag :: m :: o :: (operands.filterMap id).flatMap fun c => (f c).ids := by
    have args : (operands.map (Option.map f)).filterMap id = (operands.filterMap id).map f := by
      rw [List.filterMap_map, List.map_filterMap]
      rfl
    rw [Tree.ids_of_call rfl, Tree.ids_libraryMember, args, List.flatMap_map]
    rfl
  have tags : (operands.map (Option.map f)).map (Option.map Tree.tag) =
      operands.map (Option.map Tree.tag) := by
    rw [List.map_map]
    refine List.map_congr_left fun part mem => ?_
    cases part with
    | none => rfl
    | some c => exact congrArg some (parts c mem).2
  refine ⟨grown, ?_, ids ▸ distinct, fun x mem => ?_, fun x new bound => ?_, lowers, flags,
    references, later, fun none => ?_, fun v deep other => ?_⟩
  · refine Store.holds_call kind (tags ▸ list) member fun d mem => ?_
    obtain ⟨c, inside, rfl⟩ := Tree.some_mem_map.mp mem
    exact (parts c inside).1
  · rw [ids] at mem
    rcases List.mem_cons.mp mem with rfl | mem
    · exact .inl T.tag_mem_ids
    · exact fresh x mem
  · rw [ids]
    exact List.mem_cons_of_mem _ (filled x new bound)
  · simp [none _ T.tag_mem_ids] at replaced
  · rcases Tree.mem_subtrees_iff.mp deep with rfl | ⟨d, child, inside⟩
    · exact (other rfl).elim
    · rw [Tree.children_of_call rfl] at child
      rcases List.mem_cons.mp child with rfl | mem
      · obtain ⟨own, simple⟩ := Tree.isSimple_of_libraryMember inside
        exact (added v.tag own).imp_right fun new => ⟨new, .inr simple⟩
      · obtain ⟨c, arg, rfl⟩ := Tree.some_mem_map.mp (by simpa using mem)
        exact finished c arg v inside

theorem CallLowered.done {property : Name} {operands : List (Tree.Part Nat Name)} {g : Facts}
    {q₂ : Pass τ} {f : Tree Nat Name → Tree Nat Name} (ready : C.Ready q P T)
    (start : C.store.size ≤ q.store.size)
    (lowered : C.CallLowered names q q₁ P T enclosing property operands)
    (sub : ∀ c, some c ∈ operands → c ∈ T.children)
    (flags : ∀ x, g.isReplaced (some x) = q₁.facts.isReplaced (some x) ∧
      (x < q.store.size → g.isSettled (some x) = q₁.facts.isSettled (some x)))
    (forest : C.ForestDone names { q₁ with facts := g } q₂ (operands.filterMap id) f)
    (lowers : q₂.facts.isReplaced (some T.tag) = true →
      C.LowersTo names q₂ T
        (.node T.tag (.call (some (Tree.libraryMember C.library.library property q.store.size
          (q.store.size + 1))) (operands.map (Option.map f))))) :
    q₂.facts.isReplaced (some T.tag) = true ∧ C.Done names q q₂ T (.node T.tag (.call
      (some (Tree.libraryMember C.library.library property q.store.size (q.store.size + 1)))
      (operands.map (Option.map f)))) := by
  have old := ready.lt_size
  have member := lowered.holds.child (Tree.child_of_callee rfl)
  have size : q.store.size + 1 < q₁.store.size := member.lt_size (Tree.tag_mem_ids _)
  have below {x : Nat} (mem : x ∈ (operands.filterMap id).flatMap Tree.ids) :
      x ≠ T.tag ∧ x ∈ T.ids ∧ x < q.store.size := by
    obtain ⟨c, listed, inside⟩ := List.mem_flatMap.mp mem
    have child : c ∈ T.children := sub c (by simpa using listed)
    have within := Tree.mem_ids_of_child child inside
    exact ⟨fun same => Tree.tag_not_mem_child ready.distinct child (same ▸ inside), within,
      ready.holds.lt_size within⟩
  have outside : T.tag ∉ (operands.filterMap id).flatMap Tree.ids := fun mem => (below mem).1 rfl
  have marked : q₂.facts.isReplaced (some T.tag) = true := by
    rw [(forest.flags T.tag (by show T.tag < q₁.store.size; omega) outside).1, (flags T.tag).1]
    simp [lowered.facts]
  have fresh : ∀ x ∈ (operands.filterMap id).flatMap fun c => (f c).ids,
      x ∈ (operands.filterMap id).flatMap Tree.ids ∨ q₁.store.size ≤ x := fun x => forest.mem_or_new
  obtain ⟨range, span, found, lists⟩ := Store.shape_tree_iff.mp lowered.holds.top
  refine ⟨marked, .call ?_ (forest.grown.kind (Store.kind_of_node? found) outside)
    (forest.grown.list (lists operands (by simp [Tree.kind, Kind.parts]))) ?_ (fun c mem => ?_) ?_
    (fun x mem => ?_) (fun x new bound => ?_) (fun x bound away => ?_) (fun x bound => ?_)
    (lowered.later.trans forest.later) marked (lowers marked) (fun x new => .inr (by omega))
    fun c mem => forest.finished c (by simpa using mem)⟩
  · exact (lowered.grown.mono fun x _ same => same ▸ T.tag_mem_ids).trans
      (forest.grown.mono fun x _ mem => (below mem).2.1)
  · refine member.evolve forest.grown fun x new mem => ?_
    have bound := (below mem).2.2
    rw [Tree.ids_libraryMember, List.mem_pair] at new
    omega
  · have listed : c ∈ operands.filterMap id := by simpa using mem
    exact ⟨forest.holds c listed, (forest.lowers c listed).tag_eq⟩
  · -- The operands are old nodes other than the top, or newer than the member.
    have new : ∀ x ∈ (operands.filterMap id).flatMap fun c => (f c).ids,
        x ≠ T.tag ∧ x ≠ q.store.size ∧ x ≠ q.store.size + 1 := by
      intro x mem
      rcases fresh x mem with here | later
      · have bound := (below here).2.2
        exact ⟨(below here).1, by omega, by omega⟩
      · omega
    simp only [List.nodup_cons, List.mem_cons, not_or]
    exact ⟨⟨by omega, by omega, fun mem => (new _ mem).1 rfl⟩,
      ⟨by omega, fun mem => (new _ mem).2.2 rfl⟩, fun mem => (new _ mem).2.1 rfl, forest.distinct⟩
  · simp only [List.mem_cons] at mem
    rcases mem with rfl | rfl | mem
    · exact .inr (Nat.le_succ _)
    · exact .inr (Nat.le_refl _)
    · rcases fresh x mem with here | later
      · exact .inl (below here).2.1
      · exact .inr (by omega)
  · by_cases early : x < q₁.store.size
    · rcases lowered.filled x new early with rfl | rfl | here
      · exact List.mem_cons_of_mem _ List.mem_cons_self
      · exact List.mem_cons_self
      · exact absurd (below here).2.2 (Nat.not_lt.mpr new)
    · exact List.mem_cons_of_mem _ (List.mem_cons_of_mem _
        (forest.filled x (Nat.le_of_not_lt early) bound))
  · have other : x ≠ T.tag := fun same => away (same ▸ T.tag_mem_ids)
    obtain ⟨replaced, settled⟩ := forest.flags x (by show x < q₁.store.size; omega)
      fun mem => away (below mem).2.1
    rw [replaced, settled, (flags x).1, (flags x).2 bound]
    simp [lowered.facts, other]
  · have same := forest.references x (by show x < q₁.store.size; omega)
    rw [same]
    show q₁.scopes.bindingOf _ = _
    rw [lowered.scopes]

/-- The walk over a node that became a library call when it was entered. -/
theorem walk_lowered {property : Name} {operands : List (Tree.Part Nat Name)}
    (walks : ∀ c ∈ T.children, C.Walks names (fuel + 2) c) (h : C.Progress names q P)
    (ready : C.Ready q P T) (lowered : C.CallLowered names q q₁ P T enclosing property operands)
    (entered : C.Runs (fun judge => (C.engine judge).enter enclosing T.tag) q .below q₁)
    (sub : ∀ c, some c ∈ operands → c ∈ T.children)
    (once : ((operands.filterMap id).flatMap Tree.ids).Nodup)
    (planned : C.policy.plan (T.tour enclosing) P =
      C.policy.plan ((operands.filterMap id).flatMap (Tree.tour · enclosing))
        (C.policy.mark P enclosing T.tag))
    (lowers : ∀ (q₂ : Pass τ) f, Naming.Grows q₁.names q₂.names →
      q₂.facts.isReplaced (some T.tag) = true →
      (∀ c, some c ∈ operands → C.LowersTo names q₂ c (f c)) →
      C.LowersTo names q₂ T (.node T.tag (.call (some (Tree.libraryMember C.library.library property
        q.store.size (q.store.size + 1))) (operands.map (Option.map f))))) :
    C.WalksFrom names (fuel + 3) q P enclosing T := by
  have old := ready.lt_size
  let V : Tree Nat Name := .node T.tag (.call (some (Tree.libraryMember C.library.library property
    q.store.size (q.store.size + 1))) operands)
  have blank {x : Nat} (new : q.store.size ≤ x) : Untouched q₁ x := by
    have other : x ≠ T.tag := by omega
    obtain ⟨replaced, settled⟩ := h.blank x new
    simp [Untouched, lowered.facts, replaced, settled, other]
  -- The new member is visited first, but there is nothing to do.
  obtain ⟨g, first, h₂, flags⟩ := runs_member fuel enclosing lowered.progress
    (lowered.holds.child (Tree.child_of_callee (T := V) rfl)) (blank (Nat.le_refl _))
    (blank (Nat.le_succ _))
  have still : ∀ c ∈ operands.filterMap id,
      C.Ready { q₁ with facts := g } (C.policy.mark P enclosing T.tag) c := by
    intro c mem
    have arg : some c ∈ operands := by simpa using mem
    have before := ready.children (sub c arg)
    refine ⟨before.below, lowered.holds.child (Tree.child_of_arg (T := V) rfl arg),
      fun x inside => ?_, before.waiting⟩
    have bound := before.holds.lt_size inside
    have other : x ≠ T.tag := fun same =>
      Tree.tag_not_mem_child ready.distinct (sub c arg) (same ▸ inside)
    obtain ⟨replaced, settled⟩ := before.untouched x inside
    refine ⟨(flags x).1.trans ?_, ((flags x).2 (by omega) (by omega)).trans ?_⟩
    · simp [lowered.facts, replaced, other]
    · simp [lowered.facts, settled]
  obtain ⟨q₂, f, second, h₃, forest⟩ := walks_forest enclosing (operands.filterMap id)
    (fun c mem => walks c (sub c (by simpa using mem))) h₂ still once
  obtain ⟨marked, done⟩ := lowered.done ready h.grown.size_le sub
    (fun x => ⟨(flags x).1, fun bound => (flags x).2 (by omega) (by omega)⟩) forest fun marked =>
      lowers q₂ f forest.later marked fun c mem => forest.lowers c (by simpa using mem)
  refine ⟨_, _, .lowerWithin_below old entered (.descend (T := V) lowered.holds ?_)
    (.leave_replaced marked), ?_, done.settle⟩
  · rw [Tree.children_of_call (T := V) rfl]
    exact .forM_cons first second
  · rw [planned]
    exact h₃.settle (Nat.lt_of_lt_of_le old done.grown.size_le)

/-! ## Literals, constructor calls and operations -/

theorem fresh_member (h : C.Progress names q P) :
    ∀ y ∈ [q.store.size, q.store.size + 1], C.store.size ≤ y := by
  intro y mem
  have start := h.grown.size_le
  rcases List.mem_pair.mp mem with rfl | rfl <;> omega

section Cases

variable (h : C.Progress names q P) (ready : C.Ready q P T)

include h ready

theorem walk_literal {digits : Name} (kind : T.kind = .bigInt digits) :
    C.WalksFrom names (fuel + 1) q P enclosing T := by
  obtain ⟨range, span, found, -⟩ := Store.shape_tree_iff.mp ready.holds.top
  rw [kind] at found
  obtain ⟨q₁, run, lowered⟩ := runs_lowerLiteral enclosing h ready.below ready.holds
    (ready.untouched _ T.tag_mem_ids).1 kind span
  have start := h.grown.size_le
  have old := ready.lt_size
  have leaf : T.children = [] := by simp [Tree.children, kind, Kind.slots, Kind.parts]
  have entry : T.isLoweredOnEntry (C.policy.evidence P) = true := by
    simp [Tree.isLoweredOnEntry, kind]
  have entered : C.Runs (fun judge => (C.engine judge).enter enclosing T.tag) q .done q₁ :=
    .enter (ready.untouched _ T.tag_mem_ids) found (.bind run (.pure Step.done q₁))
  have args : ([some (.node (q.store.size + 2) (.str digits))].filterMap id).flatMap
      (fun c => (id c : Tree Nat Name).ids) = [q.store.size + 2] :=
    (List.flatMap_singleton ..).trans (Tree.ids_leaf rfl)
  obtain ⟨range', span', found', lists⟩ := Store.shape_tree_iff.mp lowered.holds.top
  have done : C.Done names q q₁ T (.node T.tag (.call (some (Tree.libraryMember C.library.library
      C.library.factory q.store.size (q.store.size + 1)))
      ([some (.node (q.store.size + 2) (.str digits))].map (Option.map id)))) := by
    refine .call (lowered.grown.mono fun x _ same => same ▸ T.tag_mem_ids)
      (Store.kind_of_node? found') (lists _ (by simp [Tree.kind, Kind.parts]))
      (lowered.holds.child (Tree.child_of_callee rfl)) (fun c mem => ?_) ?_ (fun x mem => ?_)
      (fun x new bound => ?_) (fun x bound away => ?_) (.of_eq lowered.scopes) lowered.later
      (by simp [lowered.facts]) ?_ (fun x new => .inr (by omega)) (fun c mem v below => ?_)
    · exact ⟨lowered.holds.child (Tree.child_of_arg rfl mem), rfl⟩
    · rw [args]
      simp only [List.nodup_cons, List.mem_cons, List.not_mem_nil, List.nodup_nil, or_false,
        not_false_eq_true, and_true]
      omega
    · rw [args] at mem
      simp only [List.mem_cons, List.not_mem_nil, or_false] at mem
      exact .inr (by omega)
    · rcases lowered.filled x new bound with rfl | rfl | here
      · exact List.mem_cons_of_mem _ List.mem_cons_self
      · exact List.mem_cons_self
      · exact List.mem_cons_of_mem _ (List.mem_cons_of_mem _ here)
    · have other : x ≠ T.tag := fun same => away (same ▸ T.tag_mem_ids)
      simp [lowered.facts, other]
    · refine .literal kind (by simp [lowered.facts]) fun y mem => ?_
      simp only [List.mem_cons, List.not_mem_nil, or_false] at mem
      omega
    · cases List.mem_singleton.mp mem
      cases List.mem_singleton.mp below
      exact .inr ⟨Nat.le_trans start (Nat.le_add_right _ 2), .inr rfl⟩
  refine ⟨_, _, .lowerWithin_done old entered, ?_, done.settle⟩
  rw [C.policy.plan_tour_of_entry ready.distinct (ready.waiting _ T.tag_mem_ids) entry, leaf]
  exact lowered.progress.settle (Nat.lt_of_lt_of_le old done.grown.size_le)

theorem walk_constructor (walks : ∀ c ∈ T.children, C.Walks names (fuel + 2) c)
    {callee : Tree Nat Name} {args : List (Tree.Part Nat Name)}
    (call : T.kind = .call (some callee) args)
    (constructor : callee.isConstructor C.library.constructor = true) :
    C.WalksFrom names (fuel + 3) q P enclosing T := by
  have fresh := ready.untouched _ T.tag_mem_ids
  have distinct := ready.distinct
  obtain ⟨range, span, q₁, found, run, lowered⟩ :=
    runs_lowerConstructor enclosing h ready.below ready.holds fresh.1 call constructor
  have children := Tree.children_of_call call
  have entry : T.isLoweredOnEntry (C.policy.evidence P) = true := by
    rw [Tree.isLoweredOnEntry, call]
    exact constructor
  have entered : C.Runs (fun judge => (C.engine judge).enter enclosing T.tag) q .below q₁ := by
    refine .enter fresh found (.get (fun judge f _ _ => ?_)
      (.bind (k := fun _ _ => Pure.pure Step.below) run (.pure Step.below q₁)))
    exact if_pos ((h.isConstructor_eq ready.below fresh.1 call _).trans constructor)
  refine walk_lowered walks h ready lowered entered (fun c mem => Tree.child_of_arg call mem) ?_ ?_ ?_
  · have once := Tree.nodup_children distinct
    rw [children] at once
    exact (List.nodup_append.mp once).2.1
  · have child := Tree.child_of_callee call
    rw [C.policy.plan_tour_of_entry distinct (ready.waiting _ T.tag_mem_ids) entry, children,
      List.flatMap_cons, Policy.plan_append]
    refine congrArg _ (C.policy.plan_of_isInert fun v visited => ?_)
    have below := Tree.mem_subtrees_of_tour visited
    exact ⟨Tree.isInert_of_isConstructor constructor below,
      ready.waiting _ (Tree.mem_ids_of_child child (List.mem_map_of_mem below))⟩
  · intro q₂ f later marked parts
    exact .constructor f call constructor marked (fresh_member h) parts

theorem walk_operation (walks : ∀ c ∈ T.children, C.Walks names (fuel + 2) c) {method : String}
    {operands : List (Tree.Part Nat Name)} (op : T.kind.operation? = some (method, operands)) :
    C.WalksFrom names (fuel + 3) q P enclosing T := by
  have fresh := ready.untouched _ T.tag_mem_ids
  have distinct := ready.distinct
  have judged := Kind.judged_of_operation? op
  obtain ⟨range, span, found, -⟩ := Store.shape_tree_iff.mp ready.holds.top
  obtain ⟨rule, own, enters⟩ :=
    Runs.enterNode_operation C q enclosing op C.library.constructor range span
  have asked := Runs.someBig h fun u mem => (ready.children (Tree.child_of_operation op mem)).below
  obtain ⟨literal, call, assign⟩ := Tree.kind_of_operation op
  cases big : operands.any fun part => part.any (Tree.isBig (C.policy.evidence P)) with
  | true =>
    rw [big] at asked
    obtain ⟨q₁, property, run, spells, lowered⟩ :=
      runs_lowerOperation enclosing h ready.below ready.holds fresh.1 op span own
    have children := Tree.children_of_operation op
    have entry := (Tree.isLoweredOnEntry_of_operation op _).trans big
    refine walk_lowered walks h ready lowered
      (.enter fresh found (enters q₁ (.tryOperation_true asked run)))
      (fun c mem => Tree.child_of_operation op mem) ?_ ?_ ?_
    · exact children ▸ Tree.nodup_children distinct
    · rw [C.policy.plan_tour_of_entry distinct (ready.waiting _ T.tag_mem_ids) entry, children]
    · intro q₂ f later marked parts
      exact .operation f op (spells.mono later) marked (fresh_member h) parts
  | false =>
    rw [big] at asked
    have entered := Runs.enter fresh found (enters q (.tryOperation_false fun _ => asked))
    refine walk_kept walks h ready (C.policy.enter_of_not enclosing ?_ ?_) entered literal call
    · exact (Tree.isLoweredOnEntry_of_operation op _).trans big
    · unfold Tree.isPostponed
      split
      · exact (assign _ _ _ ‹_›).elim
      · rfl

end Cases

end Setup

end BigLower
