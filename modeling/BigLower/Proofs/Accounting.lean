import BigLower.Proofs.Decisions
import BigLower.Proofs.DeepCopies
import BigLower.Proofs.Growth

/-! # The account of a lowering

Every node of a unit is entered once, so the tally, the marks on the nodes and the
size of the store tell the same story: which rules were applied to which of the old
nodes, and how many nodes were added for that.
-/

namespace BigLower

/-! ## Replaced nodes are tainted -/

def Facts.TaintsReplaced (f : Facts) : Prop :=
  ∀ x, f.isReplaced (some x) = true → f.isTainted (some x) = true

namespace Facts.TaintsReplaced

variable {f : Facts} (h : f.TaintsReplaced)

theorem empty : ({} : Facts).TaintsReplaced := fun x replaced => by simp [isReplaced] at replaced

include h

theorem markTainted (x : Nat) : (f.markTainted (some x)).TaintsReplaced := by
  intro y replaced
  rw [isReplaced_markTainted] at replaced
  simp [isTainted_markTainted, h y replaced]

theorem recordUntainted (x : Nat) : (f.recordUntainted (some x)).TaintsReplaced := by
  intro y
  simpa [isReplaced, isTainted] using h y

theorem markSettled (x : Nat) : (f.markSettled (some x)).TaintsReplaced := by
  intro y replaced
  rw [isReplaced_markSettled] at replaced
  simp [Facts.markSettled, h y replaced]

theorem marked (t : Scopes) (enclosing : Slot) (x : Nat) :
    (f.marked t enclosing x).TaintsReplaced := by
  intro y replaced
  rw [isReplaced_marked, Bool.or_eq_true] at replaced
  rcases replaced with own | before
  · have same : y = x := by simpa using own
    simp [same]
  · simp [h y before]

theorem added (x : Nat) : ((f.markReplaced (some x)).markTainted (some x)).TaintsReplaced := by
  intro y replaced
  rw [isReplaced_markTainted, markReplaced, isReplaced_add] at replaced
  rw [isTainted_markTainted]
  by_cases own : y = x
  · simp [own]
  · simp [markReplaced, h y (by simpa [own] using replaced)]

theorem copyFlags (source copy : Nat) :
    (f.copyFlags (some source) (some copy)).TaintsReplaced := by
  intro y replaced
  rw [isReplaced_copyFlags, Bool.or_eq_true, Bool.and_eq_true] at replaced
  rcases replaced with before | ⟨own, source'⟩
  · simp [h y before]
  · simp [own, h source source']

end Facts.TaintsReplaced

namespace Setup

variable {C : Setup}

/-- What a judge and the steps of a pass keep may be told along with what they agree on. -/
theorem Faithful.along {judge : Judge} {Agrees : Facts → Facts → Prop}
    (h : C.Faithful judge Agrees) {P : Facts → Prop}
    (answer : ∀ s t c slot f, P f → P (judge s t c slot f).2)
    (marked : ∀ f t enclosing x, P f → P (f.marked t enclosing x))
    (markSettled : ∀ f x, P f → P (f.markSettled (some x)))
    (added : ∀ f x, P f → P ((f.markReplaced (some x)).markTainted (some x)))
    (copied : ∀ f y x, P f → P (f.copyFlags (some y) (some x))) :
    C.Faithful judge fun f g => Agrees f g ∧ P f where
  absent := h.absent
  answer {s t f g u} judgeable agrees below := by
    obtain ⟨f', run, agrees'⟩ := h.answer judgeable agrees.1 below
    have kept := answer s t C.library.constructor (some u.tag) f agrees.2
    rw [run] at kept
    exact ⟨f', run, agrees', kept⟩
  replaced agrees := h.replaced agrees.1
  settled agrees := h.settled agrees.1
  bindings agrees := h.bindings agrees.1
  marked agrees t enclosing x := ⟨h.marked agrees.1 t enclosing x, marked _ t enclosing x agrees.2⟩
  markSettled agrees x := ⟨h.markSettled agrees.1 x, markSettled _ x agrees.2⟩
  added agrees x := ⟨h.added agrees.1 x, added _ x agrees.2⟩
  copied agrees y x outside := ⟨h.copied agrees.1 y x outside, copied _ y x agrees.2⟩

theorem faithful_tainting (C : Setup) :
    C.Faithful .cached fun f g => C.Remembers f g ∧ f.TaintsReplaced :=
  C.faithful_cached.along
    (fun _ _ _ slot f h => Judge.cachedWithin_keeps (fun _ x h => h.markTainted x)
      (fun _ x h => h.recordUntainted x) _ slot f h)
    (fun _ t enclosing x h => h.marked t enclosing x) (fun _ x h => h.markSettled x)
    (fun _ x h => h.added x) fun _ y x h => h.copyFlags y x

end Setup

/-! ## Uses of rules, in the store -/

theorem Tree.isNative_iff {constructor : Name} {T : Tree Nat Name} : T.isNative constructor = true ↔
    T.rule? constructor = some .literal ∨ T.rule? constructor = some .constructor := by
  unfold isNative rule?
  cases T.kind with
  | call callee args =>
    cases own : callee.any (isConstructor constructor) <;> simp [Kind.rule?, own]
  | _ => simp [Kind.rule?]

/-- A sum over all nodes that a rule is for can be taken rule by rule. -/
theorem Rule.sum_all {α : Type} (rule? : α → Option Rule) (weight : Rule → Nat) (list : List α) :
    (list.map fun a => (rule? a).elim 0 weight).sum =
      (all.map fun rule => weight rule * list.countP fun a => decide (rule? a = some rule)).sum := by
  induction list with
  | nil => simp
  | cons a rest ih =>
    have first : (rule? a).elim 0 weight =
        (all.map fun rule => weight rule * if decide (rule? a = some rule) then 1 else 0).sum := by
      cases rule? a with
      | none => simp
      | some used => cases used <;> simp [all]
    rw [List.map_cons, List.sum_cons, ih, first, ← List.sum_map_add]
    refine congrArg List.sum (List.map_congr_left fun rule _ => ?_)
    rw [List.countP_cons, Nat.mul_add, Nat.add_comm]

theorem Tally.total_eq (t : Tally) : t.total = (Rule.all.map t.uses).sum := by
  simp [total, Rule.all, uses]
  omega

namespace Store

variable {s s' : Store} {T : Tree Nat Name} {constructor : Name} {R : Nat → Bool}

def rule? (s : Store) (constructor : Name) (x : Nat) : Option Rule :=
  (s.node? (some x)).bind fun n => n.kind.rule? (s.isConstructor constructor)

def replaced (s : Store) (facts : Facts) : List Nat :=
  (List.range s.size).filter fun x => facts.isReplaced (some x)

def treeSize (s : Store) (x : Nat) : Nat :=
  match s.tree x with
  | .ok T => T.ids.length
  | .error _ => 0

/--
What is added to the first store for a node if it is an assignment that is lowered:
three nodes, and as many as are below its target in the second store.
-/
def copyGrowth (s s' : Store) (x : Nat) : Nat :=
  (s.node? (some x)).elim 0 fun n => n.kind.copyGrowth fun slot => slot.elim 0 s'.treeSize

theorem Holds.treeSize_eq (holds : s.Holds T) : s.treeSize T.tag = T.ids.length := by
  simp only [treeSize, holds.tree_eq]

theorem Holds.rule?_eq (holds : s.Holds T) (constructor : Name) :
    s.rule? constructor T.tag = T.rule? constructor := by
  obtain ⟨range, span, found⟩ := holds.node?
  rw [rule?, found, Option.bind_some, Kind.rule?_map, Tree.rule?]
  cases kind : T.kind with
  | call callee args =>
    cases callee with
    | none => rfl
    | some c =>
      have same := (holds.child (Tree.child_of_callee kind)).isConstructor_eq constructor
      simp only [Kind.rule?, Option.map_some, same, Option.any_some]
  | _ => rfl

theorem Holds.copyGrowth_eq (holds : s.Holds T) (s' : Store) :
    s.copyGrowth s' T.tag = T.kind.copyGrowth (Tree.partSize s'.treeSize) := by
  obtain ⟨range, span, found⟩ := holds.node?
  rw [copyGrowth, found, Option.elim_some]
  cases kind : T.kind with
  | assign op target value => cases target <;> rfl
  | _ => rfl

theorem Holds.uses_eq (holds : s.Holds T) (rule : Rule) : T.uses constructor R rule =
    ((T.replaced R).map Tree.tag).countP fun x => decide (s.rule? constructor x = some rule) := by
  rw [List.countP_map]
  refine List.countP_congr fun u mem => ?_
  have below : u ∈ T.subtrees := List.mem_of_mem_filter mem
  rw [Function.comp_apply, (holds.subtree below).rule?_eq]

theorem Holds.totalGrowth_eq (holds : s.Holds T) (s' : Store) :
    T.totalGrowth constructor s'.treeSize R =
      (((T.replaced R).map Tree.tag).map fun x =>
        (s.rule? constructor x).elim 0 Rule.growth).sum +
      (((T.replaced R).map Tree.tag).map (s.copyGrowth s')).sum := by
  rw [← List.sum_map_add, List.map_map]
  refine congrArg List.sum (List.map_congr_left fun u mem => ?_)
  have below : u ∈ T.subtrees := List.mem_of_mem_filter mem
  rw [Function.comp_apply, (holds.subtree below).rule?_eq, (holds.subtree below).copyGrowth_eq]
  rfl

end Store

/-! ## What a pass over a unit leaves -/

namespace UnitRun

variable {τ : Type} [Naming τ] {config : Config} {names : τ} {s : Store} {T u : Tree Nat Name}
  (run : UnitRun config s T names) (h : WellFormed s T)

abbrev marks (x : Nat) : Bool := run.final.facts.isReplaced (some x)

theorem not_isInert (below : u ∈ run.setup.tree.subtrees) (replaced : run.marks u.tag = true) :
    u.kind.isInert = false :=
  ((run.progress.fates u below).became replaced).isInert_eq

include h

theorem replaced_eq : run.setup.tree.replaced run.marks = T.replaced run.marks := by
  obtain ⟨body, program, -⟩ := h.program
  have kept {u : Tree Nat Name} (below : u ∈ run.setup.tree.subtrees)
      (inert : u.kind.isInert = true) : run.marks u.tag = false := by
    by_contra replaced
    rw [run.not_isInert below (by simpa using replaced)] at inert
    cases inert
  let first : Tree Nat Name :=
    .node s.size (.importDefault run.setup.library.library run.setup.library.source)
  have alone : first.subtrees = [first] := by
    rw [Tree.subtrees_eq]
    rfl
  have imported : run.marks first.tag = false := kept ((run.mem_subtrees h).mpr (.inr (.inl rfl))) rfl
  have whole := run.tree.trans (Tree.withImport_eq program _ _ s.size)
  have top : run.marks run.setup.tree.tag = false :=
    kept run.setup.tree.self_mem_subtrees (by rw [whole]; rfl)
  have top' : run.marks T.tag = false := run.tag ▸ top
  unfold Tree.replaced
  rw [run.setup.tree.subtrees_eq, run.children h, List.flatMap_cons, alone, T.subtrees_eq,
    List.singleton_append, List.filter_cons_of_neg (by simp [top]),
    List.filter_cons_of_neg (by simp [imported]), List.filter_cons_of_neg (by simp [top'])]

theorem uses_eq (rule : Rule) :
    run.final.tally.uses rule = T.uses run.setup.library.constructor run.marks rule := by
  rw [run.progress.counts rule, Tree.uses, run.replaced_eq h]
  rfl

theorem replaced_perm : (s.replaced run.final.facts).Perm ((T.replaced run.marks).map Tree.tag) := by
  have once : ((T.replaced run.marks).map Tree.tag).Nodup :=
    h.distinct.sublist (List.filter_sublist.map Tree.tag)
  refine (List.perm_ext_iff_of_nodup (List.nodup_range.filter _) once).mpr fun x => ?_
  rw [List.mem_filter, List.mem_range, List.mem_map]
  constructor
  · rintro ⟨old, replaced⟩
    have inside : x ∈ T.ids := by
      by_contra outside
      rw [run.not_replaced h old outside] at replaced
      cases replaced
    obtain ⟨u, below, rfl⟩ := List.mem_map.mp inside
    exact ⟨u, List.mem_filter.mpr ⟨below, replaced⟩, rfl⟩
  · rintro ⟨u, mem, rfl⟩
    obtain ⟨below, replaced⟩ := List.mem_filter.mp mem
    exact ⟨h.holds.lt_size (List.mem_map_of_mem below), replaced⟩

theorem uses_of_native {rule : Rule} (native : ∀ u : Tree Nat Name,
    u.rule? run.setup.library.constructor = some rule →
      u.isNative run.setup.library.constructor = true) :
    T.uses run.setup.library.constructor run.marks rule =
      T.ids.countP fun x => decide (s.rule? run.setup.library.constructor x = some rule) := by
  rw [Tree.uses, Tree.replaced, List.countP_filter, Tree.ids, List.countP_map]
  refine List.countP_congr fun u below => ?_
  rw [Function.comp_apply, (h.holds.subtree below).rule?_eq, Bool.and_eq_true]
  refine and_iff_left_of_imp fun own => ?_
  have source := native u (of_decide_eq_true own)
  obtain ⟨u', -, lowers⟩ := run.lowers_of_subtree h below (Tree.isInert_of_isNative source)
  exact lowers.replaced_of_isNative source

theorem size_eq : run.final.store.size =
    s.size + 1 + T.totalGrowth run.setup.library.constructor run.final.store.treeSize run.marks := by
  have new := run.done.lowers.countP_new (fun x mem => run.setup.holds.lt_size mem) fun v below =>
    (run.done.holds.subtree below).treeSize_eq
  have filled := Tree.countP_of_filled run.done.distinct (fun x mem => run.done.holds.lt_size mem)
    run.done.filled run.done.grown.size_le
  rw [Tree.totalGrowth, run.replaced_eq h] at new
  rw [← run.size, Tree.totalGrowth, ← new]
  exact filled.symm

end UnitRun

/--
The account of the lowering of a unit with the tree `T` in the store `s`: what the
tally and the marks in the outcome say of the nodes of `s`, and how `s` has grown
to be `s'`.
-/
structure Accounted (constructor : Name) (s : Store) (T : Tree Nat Name) (s' : Store)
    (outcome : Outcome) : Prop where
  /-- Every literal in the tree counts. -/
  literals : outcome.tally.literals =
    T.ids.countP fun x => decide (s.rule? constructor x = some .literal)
  /-- Every call of the constructor in the tree counts. -/
  constructorCalls : outcome.tally.constructorCalls =
    T.ids.countP fun x => decide (s.rule? constructor x = some .constructor)
  /-- Every old node that is replaced counts for the rule that its kind was for. -/
  uses : ∀ rule, outcome.tally.uses rule =
    (s.replaced outcome.facts).countP fun x => decide (s.rule? constructor x = some rule)
  total : outcome.tally.total = (s.replaced outcome.facts).length
  /-- Replaced nodes are tainted, the new ones too. -/
  tainted : ∀ x, outcome.facts.isReplaced (some x) = true → outcome.facts.isTainted (some x) = true
  /-- Old nodes that are still in the tree are settled. -/
  settled : ∀ x, x < s.size → s'.Reaches T.tag x → outcome.facts.isSettled (some x) = true
  size : s'.size = s.size + 1 + 3 * outcome.tally.literals + 2 * outcome.tally.constructorCalls +
    2 * outcome.tally.binary + 2 * outcome.tally.unary +
    ((s.replaced outcome.facts).map (s.copyGrowth s')).sum

namespace UnitRun

variable {τ : Type} [Naming τ] {config : Config} {names : τ} {s : Store} {T : Tree Nat Name}
  (run : UnitRun config s T names) (h : WellFormed s T) {facts : Facts}
  (remembers : run.setup.Remembers facts run.final.facts)

include remembers

theorem replaced_of_remembers : s.replaced facts = s.replaced run.final.facts :=
  List.filter_congr fun x _ => remembers.replaced (some x)

include h

theorem uses_of_remembers (rule : Rule) :
    run.final.tally.uses rule = (s.replaced facts).countP fun x =>
    decide (s.rule? run.setup.library.constructor x = some rule) := by
  rw [run.replaced_of_remembers remembers, (run.replaced_perm h).countP_eq, ← h.holds.uses_eq rule]
  exact run.uses_eq h rule

theorem total_of_remembers : run.final.tally.total = (s.replaced facts).length := by
  have ruled : ∀ x ∈ s.replaced facts,
      (s.rule? run.setup.library.constructor x).elim 0 (fun _ => 1) = 1 := by
    intro x mem
    rw [run.replaced_of_remembers remembers, (run.replaced_perm h).mem_iff] at mem
    obtain ⟨u, listed, rfl⟩ := List.mem_map.mp mem
    have below : u ∈ T.subtrees := List.mem_of_mem_filter listed
    obtain ⟨inside, replaced⟩ := List.mem_filter.mp (run.replaced_eq h ▸ listed)
    rw [(h.holds.subtree below).rule?_eq]
    cases own : u.rule? run.setup.library.constructor with
    | some rule => rfl
    | none =>
      have inert := Tree.rule?_eq_none_iff.mp own
      rw [run.not_isInert inside replaced] at inert
      cases inert
  calc run.final.tally.total
    _ = (Rule.all.map fun rule => 1 * (s.replaced facts).countP fun x =>
          decide (s.rule? run.setup.library.constructor x = some rule)).sum := by
      rw [Tally.total_eq]
      refine congrArg List.sum (List.map_congr_left fun rule _ => ?_)
      rw [Nat.one_mul, run.uses_of_remembers h remembers]
    _ = ((s.replaced facts).map fun _ => 1).sum := by
      rw [← Rule.sum_all, List.map_congr_left ruled]
    _ = (s.replaced facts).length := by simp

omit h in
theorem settled_of_remembers {x : Nat} (old : x < s.size)
    (reached : run.final.store.Reaches T.tag x) : facts.isSettled (some x) = true := by
  have top : run.lowered.tag = T.tag := run.done.lowers.tag_eq.trans run.tag
  obtain ⟨v, below, rfl⟩ := run.done.holds.mem_of_reaches (top ▸ reached)
  rw [remembers.settled]
  rcases run.finished v below with settled | ⟨new, -⟩
  · exact settled
  · rw [run.size] at new
    omega

theorem size_of_remembers : run.final.store.size = s.size + 1 + 3 * run.final.tally.literals +
    2 * run.final.tally.constructorCalls + 2 * run.final.tally.binary + 2 * run.final.tally.unary +
    ((s.replaced facts).map (s.copyGrowth run.final.store)).sum := by
  have sums (f : Nat → Nat) : (((T.replaced run.marks).map Tree.tag).map f).sum =
      ((s.replaced facts).map f).sum := by
    rw [run.replaced_of_remembers remembers]
    exact ((run.replaced_perm h).map f).sum_eq.symm
  have rules : ((s.replaced facts).map fun x =>
      (s.rule? run.setup.library.constructor x).elim 0 Rule.growth).sum =
        (Rule.all.map fun rule => rule.growth * run.final.tally.uses rule).sum := by
    rw [Rule.sum_all]
    refine congrArg List.sum (List.map_congr_left fun rule _ => ?_)
    rw [run.uses_of_remembers h remembers]
  rw [run.size_eq h, h.holds.totalGrowth_eq, sums, sums, rules]
  simp [Rule.all, Rule.growth, Tally.uses]
  omega

/-- The caching judge leaves an exact account. -/
theorem accounted (tainted : facts.TaintsReplaced) :
    Accounted run.setup.library.constructor s T run.final.store
      ⟨s.size, facts, run.final.scopes, run.final.tally⟩ where
  literals := (run.uses_eq h .literal).trans
    (run.uses_of_native h fun _ own => Tree.isNative_iff.mpr (.inl own))
  constructorCalls := (run.uses_eq h .constructor).trans
    (run.uses_of_native h fun _ own => Tree.isNative_iff.mpr (.inr own))
  uses := run.uses_of_remembers h remembers
  total := run.total_of_remembers h remembers
  tainted := tainted
  settled _ := run.settled_of_remembers remembers
  size := run.size_of_remembers h remembers

end UnitRun

/-- If its store does not get full, a unit can be lowered, and the account of this is exact. -/
theorem lower_accounted {s : Store} {T : Tree Nat Name} (h : WellFormed s T) (config : Config)
    {names : Names} (consistent : names.Consistent)
    (room : ¬ Overflows (lower config s (some T.tag) names)) :
    ∃ (store : Store) (names' : Names) (outcome : Outcome) (L : LibraryNames),
      lower config s (some T.tag) names = .ok ⟨store, names', .ok outcome⟩ ∧
      config.Named names' L ∧ Accounted L.constructor s T store outcome := by
  obtain ⟨run⟩ := h.run config names
  obtain ⟨facts, ran, remembers, tainted⟩ :=
    run.lower_agrees room run.setup.faithful_tainting ⟨run.setup.remembers_empty, .empty⟩
  exact ⟨_, _, _, run.setup.library, ran, run.named consistent, run.accounted h remembers tainted⟩

namespace Sample

/-- The names and the store of `(y += 1n).x += 2n;`. -/
def stackedNames : Names :=
  ["y", "1", "x", "2"].foldl (fun t text => (t.intern text).2) .fresh

@[inherit_doc stackedNames]
def stackedStore : Store where
  nodes := #[
    ⟨.ident 1, ⟨1, 2⟩⟩, ⟨.bigInt 2, ⟨6, 8⟩⟩, ⟨.assign .add (some 0) (some 1), ⟨1, 8⟩⟩,
    ⟨.member (some 2) 3, ⟨0, 11⟩⟩, ⟨.bigInt 4, ⟨15, 17⟩⟩,
    ⟨.assign .add (some 3) (some 4), ⟨0, 17⟩⟩, ⟨.exprStmt (some 5), ⟨0, 18⟩⟩,
    ⟨.program ⟨0, 1⟩, ⟨0, 18⟩⟩]
  lists := #[some 6]

def stackedTree : Tree Nat Name :=
  .node 7 (.program [some (.node 6 (.exprStmt (some (.node 5 (.assign .add
    (some (.node 3 (.member (some (.node 2 (.assign .add (some (.node 0 (.ident 1)))
      (some (.node 1 (.bigInt 2)))))) 3)))
    (some (.node 4 (.bigInt 4))))))))])

theorem stacked_wellFormed : WellFormed stackedStore stackedTree := by decide +kernel

theorem stacked_consistent : stackedNames.Consistent := Names.consistent_fresh.interned _

theorem stacked_room : ¬ Overflows (lower {} stackedStore (some 7) stackedNames) := by
  decide +kernel

end Sample

/-- In the sample a lowered assignment is in the target of another, and is copied with it. -/
theorem lower_accounted_stacked :
    WellFormed Sample.stackedStore Sample.stackedTree ∧ Sample.stackedNames.Consistent ∧
    ¬ Overflows (lower {} Sample.stackedStore (some 7) Sample.stackedNames) ∧
    ∃ (store : Store) (names' : Names) (outcome : Outcome) (L : LibraryNames),
      lower {} Sample.stackedStore (some 7) Sample.stackedNames = .ok ⟨store, names', .ok outcome⟩ ∧
      ({} : Config).Named names' L ∧
      Accounted L.constructor Sample.stackedStore Sample.stackedTree store outcome :=
  ⟨Sample.stacked_wellFormed, Sample.stacked_consistent, Sample.stacked_room,
    lower_accounted Sample.stacked_wellFormed {} Sample.stacked_consistent Sample.stacked_room⟩

end BigLower
