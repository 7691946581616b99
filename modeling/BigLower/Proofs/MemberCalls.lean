import BigLower.Proofs.Entering

/-! # Calls on the way up

A call of something else than the constructor is kept when it is entered. When it
is left, the call of a member with a big-integer argument counts as lowered, and
if the member is one of the mathematics object the call goes to the library.
-/

namespace BigLower

namespace Setup

variable {τ : Type} [Naming τ] {C : Setup} {names : τ} {q q₁ : Pass τ} {P P₁ : Plan}
  {T callee : Tree Nat Name} {args : List (Tree.Part Nat Name)} {enclosing : Slot} {fuel : Nat}
  {f : Tree Nat Name → Tree Nat Name}

/-! ## Entering -/

section Entering

variable (call : T.kind = .call (some callee) args)
  (plain : callee.isConstructor C.library.constructor = false)

include call plain

theorem enter_call (h : C.Progress names q P) (ready : C.Ready q P T) (enclosing : Slot) :
    C.Runs (fun judge => (C.engine judge).enter enclosing T.tag) q .below q := by
  have fresh := ready.untouched _ T.tag_mem_ids
  obtain ⟨range, span, found, -⟩ := Store.shape_tree_iff.mp ready.holds.top
  rw [call] at found
  have other : q.store.isConstructor C.library.constructor (some callee.tag) = false :=
    (h.isConstructor_eq ready.below fresh.1 call _).trans plain
  refine .enter fresh found (.get (fun judge f _ _ => ?_) (.pure Step.below q))
  exact if_neg (by simp [engine, other])

theorem enter_call_eq (P : Plan) (enclosing : Slot) : C.policy.enter P T enclosing = P := by
  refine C.policy.enter_of_not enclosing ?_ (by simp [Tree.isPostponed, call])
  rw [Tree.isLoweredOnEntry, call]
  exact plain

theorem not_isConstructorCall : T.isConstructorCall C.library.constructor = false := by
  rw [Tree.isConstructorCall, call]
  exact plain

end Entering

/-! ## Leaving -/

section Leaving

variable (ready : C.Ready q P T) (call : T.kind = .call (some callee) args)
  (forest : C.ForestDone names q q₁ T.children f)

include call forest

/-- A callee that is a member is stored as before, when it was walked over. -/
theorem kind_of_callee {object : Tree.Part Nat Name} {property : Name}
    (member : callee.kind = .member object property) :
    q₁.store.kind (some callee.tag) = .ok (.member (object.map Tree.tag) property) := by
  have child := Tree.child_of_callee call
  have lowers := forest.lowers callee child
  obtain ⟨g, kind, tags⟩ := lowers.kind_of_member member
  obtain ⟨range, span, found, -⟩ := Store.shape_tree_iff.mp (forest.holds callee child).top
  rw [lowers.tag_eq, kind] at found
  rw [← tags]
  exact Store.kind_of_node? found

include ready

theorem kind_of_call : ∃ range, q₁.store.kind (some T.tag) = .ok (.call (some callee.tag) range) ∧
    q₁.store.list range = .ok (args.map (Option.map Tree.tag)) := by
  have outside := Tree.tag_not_mem_below ready.distinct
  obtain ⟨range, span, found, lists⟩ := Store.shape_tree_iff.mp ready.holds.top
  rw [call] at found lists
  exact ⟨range, forest.grown.kind (Store.kind_of_node? found) outside,
    forest.grown.list (lists args (by simp [Kind.parts]))⟩

theorem leave_call_of_other (other : callee.isMember = false) :
    C.Runs (fun judge => (C.engine judge).leave enclosing T.tag) q₁ () q₁ := by
  have child := Tree.child_of_callee call
  have lowers := forest.lowers callee child
  obtain ⟨range, kind, -⟩ := kind_of_call ready call forest
  obtain ⟨range', span, found, -⟩ := Store.shape_tree_iff.mp (forest.holds callee child).top
  rw [lowers.tag_eq] at found
  refine .leave_plain kind (Store.kind_of_node? found) fun object property same => ?_
  have still := lowers.kind_ne_member other
  unfold Tree.isMember at still
  cases kind : (f callee).kind <;> simp_all [Kind.map]

variable (plain : callee.isConstructor C.library.constructor = false)

include plain

theorem done_call {q' : Pass τ} (sameStore : q'.store = q₁.store) (sameNames : q'.names = q₁.names)
    (sameScopes : q'.scopes = q₁.scopes)
    (flags : ∀ x, x ≠ T.tag → q'.facts.isReplaced (some x) = q₁.facts.isReplaced (some x) ∧
      q'.facts.isSettled (some x) = q₁.facts.isSettled (some x))
    (idle : q'.facts.isReplaced (some T.tag) = false → Idle q₁ q') :
    C.Done names q q' T (T.mapChildren f) :=
  forest.keep ready.holds ready.distinct sameStore sameNames sameScopes flags (by simp [call])
    (not_isConstructorCall call plain) (fun _ => ⟨_, _, call⟩) idle

theorem done_redirect {object : Tree Nat Name} {property property' : Name} {q' : Pass τ}
    (member : callee.kind = .member (some object) property)
    (math : object.kind = .ident C.library.math)
    (grown : q₁.store.Evolves (fun y => y = callee.tag ∨ y = object.tag) q'.store)
    (sameSize : q'.store.size = q₁.store.size)
    (later : Naming.Grows q₁.names q'.names) (sameScopes : q'.scopes = q₁.scopes)
    (renames : Naming.Renames names q'.names property property')
    (calleeKind : q'.store.kind (some callee.tag) = .ok (.member (some object.tag) property'))
    (objectKind : q'.store.kind (some object.tag) = .ok (.ident C.library.library))
    (replaced : ∀ x, q'.facts.isReplaced (some x) = (x == T.tag || q₁.facts.isReplaced (some x)))
    (settled : ∀ x, q'.facts.isSettled (some x) = q₁.facts.isSettled (some x)) :
    C.Done names q q' T (.node T.tag (.call (some (Tree.libraryMember C.library.library property'
      object.tag callee.tag)) (args.map (Option.map f)))) := by
  have kept := done_call ready call forest plain rfl rfl rfl (fun _ _ => ⟨rfl, rfl⟩) fun _ => .refl q₁
  have whole := (forest.lowers callee (Tree.child_of_callee call)).eq_of_member member math
  have ids : (T.mapChildren f).ids =
      T.tag :: callee.tag :: object.tag :: (args.filterMap id).flatMap fun c => (f c).ids := by
    rw [Tree.ids_eq, Tree.children_mapChildren, Tree.children_of_call call, List.map_cons, whole,
      List.flatMap_cons, Tree.ids_of_member member math, List.flatMap_map]
    rfl
  have distinct := ids ▸ kept.distinct
  obtain ⟨range, kind, list⟩ := kind_of_call ready call forest
  have spared : ∀ c, some c ∈ args → ∀ x ∈ (f c).ids, ¬ (x = callee.tag ∨ x = object.tag) := by
    intro c mem x inside same
    have listed : x ∈ (args.filterMap id).flatMap fun c => (f c).ids :=
      List.mem_flatMap.mpr ⟨c, by simpa using mem, inside⟩
    simp only [List.nodup_cons, List.mem_cons, not_or] at distinct
    rcases same with rfl | rfl
    · exact distinct.2.1.2 listed
    · exact distinct.2.2.1 listed
  have top : ¬ (T.tag = callee.tag ∨ T.tag = object.tag) := by
    simp only [List.nodup_cons, List.mem_cons, not_or] at distinct
    exact not_or.mpr ⟨distinct.1.1, distinct.1.2.1⟩
  have inside {y : Nat} (mem : y = callee.tag ∨ y = object.tag) : y ∈ T.ids := by
    refine Tree.mem_ids_of_child (Tree.child_of_callee call) ?_
    rw [Tree.ids_of_member member math]
    simpa using mem
  refine .call (kept.grown.trans (grown.mono fun y _ => inside)) (grown.kind kind top)
    (grown.list list) (Store.holds_libraryMember objectKind calleeKind) (fun c mem => ?_) distinct
    (fun x mem => kept.fresh x (ids ▸ List.mem_cons_of_mem _ mem)) (fun x new bound => ?_)
    (fun x bound away => ?_)
    (fun x bound => ?_) (forest.later.trans later) (by simp [replaced]) ?_ (fun x own => ?_)
    (fun c mem v below => ?_)
  · have child := Tree.child_of_arg call mem
    exact ⟨(forest.holds c child).evolve grown (spared c mem), (forest.lowers c child).tag_eq⟩
  · have listed := kept.filled x new (sameSize ▸ bound)
    rw [ids] at listed
    have other : x ≠ T.tag := by
      have := ready.lt_size
      omega
    exact (List.mem_cons.mp listed).resolve_left other
  · have other : x ≠ T.tag := fun same => away (same ▸ T.tag_mem_ids)
    rw [replaced, settled, beq_false_of_ne other, Bool.false_or]
    exact kept.flags x bound away
  · rw [sameScopes]
    exact forest.references x bound
  · refine .redirect f call plain member math renames (by simp [replaced]) fun c mem => ?_
    have child := Tree.child_of_arg call mem
    refine (forest.lowers c child).mono later.spelling (fun x here => ?_) fun x _ => by rw [sameScopes]
    have other : x ≠ T.tag := fun same => Tree.tag_not_mem_child ready.distinct child (same ▸ here)
    rw [replaced, beq_false_of_ne other, Bool.false_or]
  · -- The callee and its object were walked over, with the other parts.
    have walked : x ∈ (f callee).ids := by
      rw [whole, Tree.ids_of_member member math]
      simpa [or_comm] using own
    obtain ⟨v, below, rfl⟩ := List.mem_map.mp walked
    rw [settled]
    exact (forest.finished callee (Tree.child_of_callee call) v below).imp_right And.left
  · have other : v.tag ≠ T.tag := fun same => by
      have listed : v.tag ∈ (args.filterMap id).flatMap fun c => (f c).ids :=
        List.mem_flatMap.mpr ⟨c, by simpa using mem, List.mem_map_of_mem below⟩
      simp only [List.nodup_cons, List.mem_cons, not_or] at distinct
      exact distinct.1.2.2 (same ▸ listed)
    refine (forest.finished c (Tree.child_of_arg call mem) v below).of_marks ?_ id rfl
    simp [marks, replaced, settled, beq_false_of_ne other]

variable (h₁ : C.Progress names q₁ P₁)

include h₁

theorem leave_other_object {object : Tree.Part Nat Name} {property : Name}
    (member : callee.kind = .member object property)
    (other : object.any (Tree.isIdent C.library.math) = false) (enclosing : Slot) :
    ∃ q' T', C.Runs (fun judge => do
        (C.engine judge).redirectMember (some callee.tag) (object.map Tree.tag) property
        Engine.applied enclosing T.tag .methodCall) q₁ () q' ∧
      C.Progress names q' (C.policy.mark P₁ enclosing T.tag) ∧ C.Done names q q' T T' := by
  have unmarked := forest.unmarked ready
  have stored : q₁.store.isIdent (object.map Tree.tag) C.library.math = false := by
    cases object with
    | none => rfl
    | some o => exact (h₁.isIdent_eq ready.below unmarked call member _).trans other
  refine ⟨_, _, .bind (.redirect_other stored) (.applied enclosing T.tag .methodCall),
    h₁.method ready.below unmarked call (by simp [Tree.isMember, member]) plain ?_,
    done_call ready call forest plain rfl rfl rfl (fun x different => ?_) fun unmarked => ?_⟩
  · intro o property' member' ident
    rw [member] at member'
    cases member'
    simp [Tree.isIdent, ident] at other
  · simp [Progress.mark, different]
  · simp [Progress.mark] at unmarked

theorem leave_math_object {object : Tree Nat Name} {property : Name}
    (member : callee.kind = .member (some object) property)
    (math : object.kind = .ident C.library.math) (enclosing : Slot) :
    ∃ q' T', C.Runs (fun judge => do
        (C.engine judge).redirectMember (some callee.tag) (some object.tag) property
        Engine.applied enclosing T.tag .methodCall) q₁ () q' ∧
      C.Progress names q' (C.policy.mark P₁ enclosing T.tag) ∧ C.Done names q q' T T' := by
  have unmarked := forest.unmarked ready
  have child := Tree.child_of_callee call
  have whole := (forest.lowers callee child).eq_of_member member math
  have ids := Tree.ids_of_member member math
  have held := whole ▸ forest.holds callee child
  have bound : callee.tag < q₁.store.size := held.lt_size callee.tag_mem_ids
  have bound' : object.tag < q₁.store.size := held.lt_size (by simp [ids])
  have apart : object.tag ≠ callee.tag := fun same =>
    Tree.tag_not_mem_child (Tree.nodup_child ready.distinct child) (Tree.child_of_object member)
      (same ▸ object.tag_mem_ids)
  -- First the object is replaced, then the callee.
  obtain ⟨s₁, first, objectKind⟩ := Store.replace_of_lt bound' (.ident C.library.library)
  have moved₁ := Store.evolves_replace first
  let text := mathMethod (Naming.text q₁.names property)
  let property' := (Naming.intern q₁.names text).1
  obtain ⟨s₂, second, calleeKind⟩ := Store.replace_of_lt
    (Nat.lt_of_lt_of_le bound moved₁.size_le) (.member (some object.tag) property')
  have moved₂ := Store.evolves_replace second
  have objectKind' := moved₂.kind objectKind apart
  have grown : q₁.store.Evolves (fun y => y = callee.tag ∨ y = object.tag) s₂ :=
    (moved₁.mono fun _ _ => .inr).trans (moved₂.mono fun _ _ => .inl)
  have renames : Naming.Renames names (Naming.intern q₁.names text).2 property property' :=
    ⟨q₁.names, h₁.interned, q₁.names, .refl, rfl, .refl⟩
  have ident : q₁.store.isIdent (some object.tag) C.library.math = true := by
    rw [h₁.isIdent_eq ready.below unmarked call member]
    simp [Tree.isIdent, math]
  refine ⟨_, _, .bind (.redirect_math ident first second) (.applied enclosing T.tag .methodCall),
    h₁.redirect ready.below unmarked call plain member math grown (.intern .refl text) renames
      calleeKind objectKind',
    done_redirect ready call forest plain member math grown
      ((Store.size_replace second).trans (Store.size_replace first)) (.intern .refl text) rfl renames
      calleeKind objectKind' (fun x => ?_) fun x => ?_⟩
  · simp [Progress.mark]
  · simp [Progress.mark]

/-- The call of a member with a big-integer argument is marked, and perhaps redirected. -/
theorem leave_member {object : Tree.Part Nat Name} {property : Name}
    (member : callee.kind = .member object property) (enclosing : Slot) :
    ∃ q' T', C.Runs (fun judge => do
        (C.engine judge).redirectMember (some callee.tag) (object.map Tree.tag) property
        Engine.applied enclosing T.tag .methodCall) q₁ () q' ∧
      C.Progress names q' (C.policy.mark P₁ enclosing T.tag) ∧ C.Done names q q' T T' := by
  cases ident : object.any (Tree.isIdent C.library.math) with
  | false => exact leave_other_object ready call forest plain h₁ member ident enclosing
  | true =>
    obtain ⟨o, rfl, same⟩ := (Option.any_eq_true _ _).mp ident
    refine leave_math_object ready call forest plain h₁ member ?_ enclosing
    unfold Tree.isIdent at same
    split at same
    · rename_i kind
      rw [kind, eq_of_beq same]
    · cases same

theorem leave_call (waiting : T.tag ∉ P₁.pending) (enclosing : Slot) :
    ∃ q' T', C.Runs (fun judge => (C.engine judge).leave enclosing T.tag) q₁ () q' ∧
      C.Progress names q' (C.policy.leave P₁ T enclosing) ∧ C.Done names q q' T T' := by
  have unmarked := forest.unmarked ready
  have kept := done_call ready call forest plain rfl rfl rfl (fun _ _ => ⟨rfl, rfl⟩) fun _ => .refl q₁
  have stay (small : C.memberCalls = true → T.isBigMemberCall (C.policy.evidence P₁) = false)
      (run : C.Runs (fun judge => (C.engine judge).leave enclosing T.tag) q₁ () q₁) :
      ∃ q' T', C.Runs (fun judge => (C.engine judge).leave enclosing T.tag) q₁ () q' ∧
        C.Progress names q' (C.policy.leave P₁ T enclosing) ∧ C.Done names q q' T T' := by
    refine ⟨q₁, _, run, ?_, kept⟩
    rw [C.policy.leave_of_not enclosing waiting small]
    exact h₁
  cases on : C.memberCalls with
  | false => exact stay (by simp [on]) (.leave_off on)
  | true =>
    cases member : callee.isMember with
    | false =>
      refine stay (fun _ => ?_) (leave_call_of_other ready call forest member)
      simp [Tree.isBigMemberCall, call, member]
    | true =>
      obtain ⟨object, property, kind⟩ : ∃ object property, callee.kind = .member object property := by
        unfold Tree.isMember at member
        split at member
        · exact ⟨_, _, ‹_›⟩
        · cases member
      have decision : T.isBigMemberCall (C.policy.evidence P₁) =
          args.any fun part => part.any (Tree.isBig (C.policy.evidence P₁)) := by
        rw [Tree.isBigMemberCall, call]
        show (callee.isMember && !callee.isConstructor C.library.constructor && _) = _
        simp [member, plain]
      obtain ⟨range, stored, list⟩ := kind_of_call ready call forest
      have inside := kind_of_callee call forest kind
      have asked := Runs.someBig h₁ fun u mem => (ready.children (Tree.child_of_arg call mem)).below
      cases big : args.any fun part => part.any (Tree.isBig (C.policy.evidence P₁)) with
      | false =>
        rw [big] at asked
        refine stay (fun _ => decision.trans big) (.leave_member on unmarked stored inside list ?_)
        exact .bind asked (.pure () q₁)
      | true =>
        rw [big] at asked
        have planned : C.policy.leave P₁ T enclosing = C.policy.mark P₁ enclosing T.tag :=
          if_pos (.inr ⟨on, decision.trans big⟩)
        rw [planned]
        obtain ⟨q', T', run, progress, done⟩ :=
          leave_member ready call forest plain h₁ kind enclosing
        exact ⟨q', T', .leave_member on unmarked stored inside list (.bind asked run), progress, done⟩

end Leaving

/-- The walk over a call of something else than the constructor. -/
theorem walk_call (walks : ∀ c ∈ T.children, C.Walks names fuel c) (h : C.Progress names q P)
    (ready : C.Ready q P T) (call : T.kind = .call (some callee) args)
    (plain : callee.isConstructor C.library.constructor = false) :
    C.WalksFrom names (fuel + 1) q P enclosing T :=
  walk_below walks h ready (enter_call_eq call plain P enclosing)
    (enter_call call plain h ready enclosing) fun _ _ _ h₁ waiting forest =>
      leave_call ready call forest plain h₁ waiting enclosing

end Setup

end BigLower
