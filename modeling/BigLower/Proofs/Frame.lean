import BigLower.Proofs.Native

/-! # What lowering keeps and what it puts in place

The whole effect of lowering on the store of a unit, node by node: the import at
the top, what every other node became or kept, and that the copy of an assigned
target is at the end still a copy of it.
-/

namespace BigLower

variable {L : LibraryNames} {w w' : Spelling} {s : Store} {T T' u : Tree Nat Name} {R : Nat → Bool}
  {B : Nat → Option Nat}

/-! ## Fates seen from an earlier store -/

section Rebase

variable {base base' : Store} {tree tree' : Tree Nat Name} (fewer : base'.size ≤ base.size)

include fewer

theorem AddedMember.rebase {property : Name} {m : Nat} (h : AddedMember L base s property m) :
    AddedMember L base' s property m := by
  obtain ⟨o, fresh, kinds⟩ := h.added
  exact ⟨Nat.le_trans fewer h.fresh, o, Nat.le_trans fewer fresh, kinds⟩

theorem Became.rebase (h : Became L base w s u)
    (same : base.node? (some u.tag) = base'.node? (some u.tag)) (later : w.Le w') :
    Became L base' w' s u := by
  cases h with
  | literal kind member fresh text list own =>
    exact .literal kind (member.rebase fewer) (Nat.le_trans fewer fresh) text list own
  | constructor kind callee member start own =>
    refine .constructor kind callee (member.rebase fewer) ?_ own
    obtain ⟨n, found, kind⟩ := Store.kind_eq_ok_iff.mp start
    exact Store.kind_eq_ok_iff.mpr ⟨n, same ▸ found, kind⟩
  | operation op spells member list own =>
    exact .operation op (later.method spells) (member.rebase fewer) list own
  | compound kind method spells member fresh copy list call own =>
    exact .compound kind method (later.method spells) (member.rebase fewer) (Nat.le_trans fewer fresh)
      (fun x mem => Nat.le_trans fewer (copy x mem)) list call own
  | method kind member plain own redirected =>
    refine .method kind member plain (own.trans same) fun object property inside math => ?_
    obtain ⟨library, property', renames, callee⟩ := redirected object property inside math
    exact ⟨library, property', later.math renames, callee⟩

omit fewer in
theorem Kept.rebase (h : Kept L base w s tree R u)
    (same : base.node? (some u.tag) = base'.node? (some u.tag))
    (calls : ∀ v ∈ tree.subtrees, ∀ callee args, v.kind = .call callee args → v ∈ tree'.subtrees)
    (later : w.Le w') : Kept L base' w' s tree' R u := by
  cases h with
  | same own => exact .same (own.trans same)
  | callee call kind replaced plain inside math renames own =>
    exact .callee (calls _ call _ _ kind) kind replaced plain inside math (later.math renames) own
  | object call kind replaced plain inside math own =>
    exact .object (calls _ call _ _ kind) kind replaced plain inside math own

theorem Fate.rebase (h : Fate L base w s tree R u)
    (same : base.node? (some u.tag) = base'.node? (some u.tag))
    (calls : ∀ v ∈ tree.subtrees, ∀ callee args, v.kind = .call callee args → v ∈ tree'.subtrees)
    (later : w.Le w') : Fate L base' w' s tree' R u where
  became replaced := (h.became replaced).rebase fewer same later
  kept kept := (h.kept kept).rebase same calls later

end Rebase

/-! ## Lowered subtrees -/

theorem Tree.isInert_of_isNative {constructor : Name} (native : T.isNative constructor = true) :
    T.kind.isInert = false := by
  unfold isNative at native
  cases kind : T.kind <;> simp_all [Kind.isInert]

namespace Tree.Lowers

variable {start : Nat}

theorem mem_subtrees_of_arg {x : Nat} {callee : Part Nat Name} {args : List (Part Nat Name)}
    {f : Tree Nat Name → Tree Nat Name} {c : Tree Nat Name} (mem : some c ∈ args)
    (inside : u ∈ (f c).subtrees) :
    u ∈ (node x (.call callee (args.map (Option.map f)))).subtrees :=
  mem_subtrees_of_child (child_of_arg rfl (some_mem_map.mpr ⟨c, mem, rfl⟩)) inside

/-- What a rule is for is lowered where it stands. -/
theorem of_subtree (h : Lowers L w start R B T T') (below : u ∈ T.subtrees)
    (rule : u.kind.isInert = false) : ∃ u' ∈ T'.subtrees, Lowers L w start R B u u' := by
  have whole := h
  -- A callee that is dropped or redirected is inert, so what is asked for is not in it.
  induction h with
  | @literal T digits o m x kind own fresh =>
    have leaf : T.children = [] := by simp [children, kind, Kind.slots, Kind.parts]
    rw [subtrees_eq, leaf] at below
    cases List.mem_singleton.mp below
    exact ⟨_, self_mem_subtrees _, whole⟩
  | @constructor T callee args o m f kind constructor own fresh parts ih =>
    rcases mem_subtrees_iff.mp below with rfl | ⟨c, child, inside⟩
    · exact ⟨_, self_mem_subtrees _, whole⟩
    · rw [children_of_call kind] at child
      rcases List.mem_cons.mp child with rfl | arg
      · simp [isInert_of_isConstructor constructor inside] at rule
      · have mem : some c ∈ args := by simpa using arg
        obtain ⟨u', inside', lowers⟩ := ih c mem inside (parts c mem)
        exact ⟨u', mem_subtrees_of_arg mem inside', lowers⟩
  | @operation T method operands property o m f op spells own fresh parts ih =>
    rcases mem_subtrees_iff.mp below with rfl | ⟨c, child, inside⟩
    · exact ⟨_, self_mem_subtrees _, whole⟩
    · rw [children_of_operation op] at child
      have mem : some c ∈ operands := by simpa using child
      obtain ⟨u', inside', lowers⟩ := ih c mem inside (parts c mem)
      exact ⟨u', mem_subtrees_of_arg mem inside', lowers⟩
  | @compound T op target value copy method property o m call f kind found spells own new parts same
      fresh ih =>
    rcases mem_subtrees_iff.mp below with rfl | ⟨c, child, inside⟩
    · exact ⟨_, self_mem_subtrees _, whole⟩
    · have mem : some c ∈ [target, value] := by
        simpa [mem_children_iff, kind, Kind.slots, Kind.parts] using child
      obtain ⟨u', inside', lowers⟩ := ih c mem inside (parts c mem)
      rw [children_of_assign kind] at child
      exact ⟨u', subtrees_trans (mem_subtrees_loweredAssign child) inside', lowers⟩
  | @redirect T callee object args property property' f kind plain member math renames own parts ih =>
    rcases mem_subtrees_iff.mp below with rfl | ⟨c, child, inside⟩
    · exact ⟨_, self_mem_subtrees _, whole⟩
    · rw [children_of_call kind] at child
      rcases List.mem_cons.mp child with rfl | arg
      · have constructor : c.isConstructor L.math = true := by
          simp [isConstructor, isIdent, member, math]
        simp [isInert_of_isConstructor constructor inside] at rule
      · have mem : some c ∈ args := by simpa using arg
        obtain ⟨u', inside', lowers⟩ := ih c mem inside (parts c mem)
        exact ⟨u', mem_subtrees_of_arg mem inside', lowers⟩
  | @keep T f literal call own parts ih =>
    rcases mem_subtrees_iff.mp below with rfl | ⟨c, child, inside⟩
    · exact ⟨_, self_mem_subtrees _, whole⟩
    · obtain ⟨u', inside', lowers⟩ := ih c child inside (parts c child)
      refine ⟨u', mem_subtrees_of_child ?_ inside', lowers⟩
      rw [children_mapChildren]
      exact List.mem_map_of_mem child

theorem replaced_of_isNative (h : Lowers L w start R B T T')
    (native : T.isNative L.constructor = true) : R T.tag = true := by
  cases h with
  | keep f literal call =>
    unfold isNative at native
    unfold isConstructorCall at call
    cases kind : T.kind <;> simp_all
  | literal | constructor | operation | compound | redirect => assumption

end Tree.Lowers

/-! ## The frame -/

/-- One slot holds what was copied from another, all of it in nodes from `start` on. -/
def Store.IsCopy (s : Store) (start : Nat) (slot copy : Slot) : Prop :=
  ∃ A B : Tree.Part Nat Name, A.map Tree.tag = slot ∧ B.map Tree.tag = copy ∧
    (∀ t ∈ A, s.Holds t) ∧ (∀ t ∈ B, s.Holds t ∧ ∀ x ∈ t.ids, start ≤ x) ∧
    B.map Tree.form = A.map Tree.form

/--
What lowering makes of the store `s` that holds the tree of a unit. Names are told
by `w`, and the nodes that a rule was applied to by `replaced`.
-/
structure Framed (L : LibraryNames) (w : Spelling) (s : Store) (T : Tree Nat Name) (s' : Store)
    (replaced : Nat → Bool) : Prop where
  /-- Lists, spans and whatever is not in the tree stay as they are. -/
  grown : s.Evolves (· ∈ T.ids) s'
  /-- The program has one more statement, a new node in front of the old ones. -/
  program : ∃ range range' body, s.kind (some T.tag) = .ok (.program range) ∧
    s.list range = .ok body ∧ s'.kind (some T.tag) = .ok (.program range') ∧
    s'.list range' = .ok (some s.size :: body)
  /-- The new statement imports the library. -/
  imported : s'.kind (some s.size) = .ok (.importDefault L.library L.source)
  fates : ∀ u ∈ T.subtrees, u ≠ T → Fate L s w s' T replaced u
  /-- Every literal and every call of the constructor is replaced. -/
  natives : ∀ u ∈ T.subtrees, u.isNative L.constructor = true → replaced u.tag = true
  /-- The target of a lowered assignment is copied as it is in the end. -/
  copies : ∀ u ∈ T.subtrees, ∀ op target value, u.kind = .assign op target value →
    replaced u.tag = true → ∃ call callee range copy,
      s'.kind (some u.tag) = .ok (.assign .plain (target.map Tree.tag) (some call)) ∧
      s'.kind (some call) = .ok (.call callee range) ∧
      s'.list range = .ok [copy, value.map Tree.tag] ∧
      s'.IsCopy s.size (target.map Tree.tag) copy

/-- A lowered assignment in a held tree goes to its target and takes a copy of it. -/
theorem Tree.Lowers.copies {first start : Nat} (h : Lowers L w start R B T T') (holds : s.Holds T')
    (before : first ≤ start) {op : AssignOp} {target value : Part Nat Name}
    (kind : T.kind = .assign op target value) (replaced : R T.tag = true) : ∃ call callee range copy,
      s.kind (some T.tag) = .ok (.assign .plain (target.map Tree.tag) (some call)) ∧
      s.kind (some call) = .ok (.call callee range) ∧
      s.list range = .ok [copy, value.map Tree.tag] ∧
      s.IsCopy first (target.map Tree.tag) copy := by
  obtain ⟨x, k⟩ := T
  cases kind
  cases h with
  | @compound _ _ _ _ copy _ _ o m call f kind _ _ _ _ parts same fresh =>
    cases kind
    have tags {part : Part Nat Name} (mem : part ∈ [target, value]) :
        (part.map f).map Tree.tag = part.map Tree.tag := by
      cases part with
      | none => rfl
      | some c => exact congrArg some (parts c mem).tag_eq
    have target' := tags List.mem_cons_self
    have value' := tags (List.mem_cons_of_mem _ List.mem_cons_self)
    obtain ⟨_, _, found, -⟩ := Store.shape_tree_iff.mp holds.top
    have inner := holds.child (child_of_assign rfl (List.mem_cons_of_mem _ List.mem_cons_self))
    obtain ⟨range, _, found', lists⟩ := Store.shape_tree_iff.mp inner.top
    refine ⟨call, some m, range, copy.map Tree.tag, ?_, Store.kind_of_node? found', ?_,
      target.map f, copy, target', rfl, fun t mem => ?_, fun t mem => ⟨?_, fun x inside => ?_⟩,
      form_of_relabel same⟩
    · rw [← target']
      exact Store.kind_of_node? found
    · rw [← value']
      exact lists [copy, value.map f] (by simp [Tree.kind, Kind.parts])
    · exact holds.child (child_of_assign rfl (mem ▸ List.mem_cons_self))
    · exact inner.child (child_of_arg rfl (mem ▸ List.mem_cons_self))
    · exact Nat.le_trans before (fresh t mem x inside)
  | keep f _ _ own =>
    obtain ⟨callee, args, kind⟩ := own replaced
    cases kind
  | _ => contradiction

namespace UnitRun

variable {τ : Type} [Naming τ] {config : Config} {names : τ}

/-- What becomes of the nodes, as seen from the store before the import. -/
theorem fate (run : UnitRun config s T names) (h : WellFormed s T) (below : u ∈ T.subtrees)
    (other : u ≠ T) (later : (Naming.spelling (config.intern names).2 run.final.names).Le w) :
    Fate run.setup.library s w run.final.store T
      (fun x => run.final.facts.isReplaced (some x)) u := by
  obtain ⟨body, program, -⟩ := h.program
  refine (run.progress.fates u (run.mem_subtrees_of_ne h below other)).rebase
    (by rw [run.size]; omega) ?_ ?_ later
  · obtain ⟨range, span, found⟩ := (h.holds.subtree below).node?
    rw [found]
    exact run.grown.kept found fun same =>
      other (Tree.eq_of_tag_eq h.distinct below T.self_mem_subtrees same)
  · intro v mem callee args call
    rcases (run.mem_subtrees h).mp mem with rfl | rfl | ⟨c, child, deep⟩
    · rw [run.tree, Tree.withImport_eq program] at call
      cases call
    · cases call
    · exact Tree.mem_subtrees_of_child child deep

/-- The import and the program are not changed by the pass. -/
theorem program (run : UnitRun config s T names) (h : WellFormed s T) :
    (∃ range range' body, s.kind (some T.tag) = .ok (.program range) ∧ s.list range = .ok body ∧
      run.final.store.kind (some T.tag) = .ok (.program range') ∧
      run.final.store.list range' = .ok (some s.size :: body)) ∧
    run.final.store.kind (some s.size) =
      .ok (.importDefault run.setup.library.library run.setup.library.source) := by
  obtain ⟨body, program, -⟩ := h.program
  have whole := run.tree.trans (Tree.withImport_eq program _ _ s.size)
  have same {u : Tree Nat Name} (below : u ∈ run.setup.tree.subtrees) (inert : u.kind.isInert = true)
      (ident : ∀ name, u.kind ≠ .ident name)
      (member : ∀ object property, u.kind ≠ .member object property) :=
    (run.progress.fates u below).node?_eq inert ident member
  constructor
  · obtain ⟨range, span, found, lists⟩ := Store.shape_tree_iff.mp h.holds.top
    obtain ⟨range', span', found', lists'⟩ := Store.shape_tree_iff.mp run.setup.holds.top
    have kept := same run.setup.tree.self_mem_subtrees (by rw [whole]; rfl)
      (by simp [whole, Tree.kind]) (by simp [whole, Tree.kind])
    rw [found', run.tag, whole] at kept
    rw [program] at found lists
    rw [whole] at lists'
    have read := lists' _ List.mem_cons_self
    exact ⟨range, range', _, Store.kind_of_node? found, lists body (by simp [Kind.parts]),
      Store.kind_of_node? kept, run.progress.grown.list read⟩
  · have first : Tree.node s.size
        (.importDefault run.setup.library.library run.setup.library.source) ∈
        run.setup.tree.subtrees := by
      refine Tree.child_mem_subtrees ?_
      rw [run.tree, Tree.children_withImport program]
      exact List.mem_cons_self
    obtain ⟨range, span, found⟩ := (run.setup.holds.subtree first).node?
    exact Store.kind_of_node? ((same first rfl (by simp [Tree.kind]) (by simp [Tree.kind])).trans found)

theorem evolves (run : UnitRun config s T names) (h : WellFormed s T) :
    s.Evolves (· ∈ T.ids) run.final.store := by
  have first : s.Evolves (fun x => x = s.size ∨ x ∈ T.ids) run.setup.store :=
    run.grown.mono fun x _ same => .inr (same ▸ T.tag_mem_ids)
  have second := run.progress.grown.mono fun x _ mem => (run.mem_ids h).mp mem
  refine (first.trans second).mono fun x old changed => ?_
  rcases changed with rfl | inside
  · exact (Nat.lt_irrefl _ old).elim
  · exact inside

theorem lowers_of_subtree (run : UnitRun config s T names) (h : WellFormed s T)
    (below : u ∈ T.subtrees) (rule : u.kind.isInert = false) :
    ∃ u' ∈ run.lowered.subtrees, run.setup.LowersTo (config.intern names).2 run.final u u' := by
  refine run.done.lowers.of_subtree (run.mem_subtrees_of_ne h below ?_) rule
  rintro rfl
  obtain ⟨body, program, -⟩ := h.program
  rw [program] at rule
  cases rule

end UnitRun

end BigLower
