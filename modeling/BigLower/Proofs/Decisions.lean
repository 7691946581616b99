import BigLower.Proofs.Native
import BigLower.Proofs.Planning
import Mathlib.Data.List.Induction

/-! # Which nodes are lowered

Whether a node is lowered follows from the tree of the unit and its scopes alone.
Literals and constructor calls always are. An operation is if an operand is a big
integer, given the variables in whose declarations something was lowered before.
A member call is if an argument is one when everything below it is done.
-/

namespace BigLower

/-! ## The law -/

def Kind.values {ν σ : Type} : Kind ν σ (List σ) → List σ
  | binary _ left right => [left, right]
  | unary _ operand => [operand]
  | assign _ _ value => [value]
  | call _ args => args
  | _ => []

theorem Kind.values_of_judged {ν σ : Type} {k : Kind ν σ (List σ)} {part : σ}
    (mem : part ∈ k.judged) : part ∈ k.values := by
  cases k <;> simp_all [judged, values]

namespace Tree

def ValuesInPlace (T : Tree Nat Name) : Prop :=
  ∀ u ∈ T.subtrees, ∀ part ∈ u.kind.values, part.any isDeclarator = false

instance {T : Tree Nat Name} : Decidable T.ValuesInPlace :=
  inferInstanceAs (Decidable (∀ u ∈ T.subtrees, ∀ part ∈ u.kind.values,
    part.any isDeclarator = false))

def isOperation (T : Tree Nat Name) : Bool :=
  match T.kind with
  | .binary .. | .unary .. | .assign .. => true
  | _ => false

theorem plain_of_isOperation {T : Tree Nat Name} (operation : T.isOperation = true) (e : Evidence) :
    T.isDeclarator = false ∧ T.isSource e = false := by
  unfold isOperation at operation
  unfold isDeclarator isSource
  cases kind : T.kind <;> simp_all

theorem isLoweredOnEntry_of_isNative {T : Tree Nat Name} {e : Evidence}
    (native : T.isNative e.constructor = true) : T.isLoweredOnEntry e = true := by
  unfold isNative at native
  unfold isLoweredOnEntry
  cases kind : T.kind <;> simp_all

end Tree

namespace Policy

/--
Whether a variable is known to hold big integers after some visits: a node inside
its declaration has had its turn and is one of those that are lowered.
-/
def boundAfter (k : Policy) (lowered : Nat → Bool) (before : List Visit) (binding : Nat) : Bool :=
  before.any fun v => v.isTurn k.constructor && lowered v.tree.tag &&
    decide (k.scopes.declaredBy v.enclosing = some binding)

/-- What is known after some visits, if besides the nodes in `tainted` are known to be big. -/
def known (k : Policy) (lowered : Nat → Bool) (before : List Visit) (tainted : Nat → Bool) :
    Evidence where
  constructor := k.constructor
  tainted := tainted
  bound x := (k.scopes.bindingOf (some x)).any (k.boundAfter lowered before)

end Policy

/-- The nodes of a tree that are lowered are chosen by the law. -/
structure Decided (k : Policy) (T : Tree Nat Name) (lowered : Nat → Bool) : Prop where
  /-- Literals and constructor calls always are. -/
  native : ∀ u ∈ T.subtrees, u.isNative k.constructor = true → lowered u.tag = true
  /-- Nodes that no rule is for never are. -/
  inert : ∀ u ∈ T.subtrees, u.kind.isInert = true → lowered u.tag = false
  /-- Operations are if they are judged to be big from the tree when they are entered. -/
  operation : ∀ before n enclosing after, T.tour none = before ++ ⟨false, n, enclosing⟩ :: after →
    n.isOperation = true → lowered n.tag = n.isBig (k.known lowered before fun _ => false)
  /-- Other calls are if they go to a member and an argument is big when they are left. -/
  call : ∀ before n enclosing after, T.tour none = before ++ ⟨true, n, enclosing⟩ :: after →
    ∀ callee args, n.kind = .call callee args → n.isConstructorCall k.constructor = false →
      lowered n.tag = (k.memberCalls && callee.any Tree.isMember &&
        args.any fun part => part.any (Tree.isBig (k.known lowered before lowered)))

/-! ## Plans follow the law -/

namespace Policy

variable (k : Policy) {T u n c : Tree Nat Name} {before after : List Visit} {enclosing : Slot}
  {R tainted : Nat → Bool} (distinct : T.ids.Nodup)

def Chooses (T : Tree Nat Name) (R : Nat → Bool) : Prop :=
  ∀ x ∈ T.ids, R x = decide (x ∈ (k.plan (T.tour none) {}).replaced)

include distinct

theorem boundAfter_eq (chooses : k.Chooses T R) (split : T.tour none = before ++ after) (b : Nat) :
    k.boundAfter R before b = decide (b ∈ (k.plan before {}).bindings) := by
  rw [Bool.eq_iff_iff, decide_eq_true_eq, mem_bindings_iff, boundAfter, List.any_eq_true]
  refine exists_congr fun v => ?_
  rw [k.mem_marked_iff_turn distinct split, and_assoc]
  refine and_congr_right fun mem => ?_
  have inside : v.tree.tag ∈ T.ids := List.mem_map_of_mem (Tree.mem_subtrees_of_before split mem)
  simp [chooses _ inside, and_assoc]

/-- A node other than a declarator is tainted if it was lowered. -/
theorem tainted_eq (split : T.tour none = before ++ after) (below : u ∈ T.subtrees)
    (other : u.isDeclarator = false) :
    (k.evidence (k.plan before {})).tainted u.tag =
      decide (u.tag ∈ (k.plan before {}).replaced) := by
  have outside : u.tag ∉ (k.plan before {}).declarators := by
    intro mem
    obtain ⟨v, marked, same⟩ := k.mem_declarators_iff.mp mem
    have visited := ((k.mem_marked_iff_turn distinct split).mp marked).1
    rcases Tree.enclosing_of_tour (split ▸ List.mem_append_left after visited) with top | inner
    · rw [top] at same
      cases same
    · obtain ⟨d, inside, declarator, -, tag⟩ := inner
      rw [tag, Option.some.injEq] at same
      rw [Tree.eq_of_tag_eq distinct inside below same, other] at declarator
      cases declarator
  simp [evidence, outside]

/-- What a plan judges can be judged from what is known. -/
theorem isBig_eq_known (values : T.ValuesInPlace) (chooses : k.Chooses T R)
    (split : T.tour none = before ++ after) (below : c ∈ T.subtrees)
    (other : c.isDeclarator = false)
    (same : ∀ u ∈ c.subtrees, decide (u.tag ∈ (k.plan before {}).replaced) = tainted u.tag) :
    c.isBig (k.evidence (k.plan before {})) = c.isBig (k.known R before tainted) := by
  refine @Tree.isBig_congr_of (k.evidence (k.plan before {})) (k.known R before tainted)
    (fun u => u ∈ c.subtrees ∧ u.isDeclarator = false) (fun u asked v mem => ?_) rfl
    (fun u asked => ?_) (fun u _ => ?_) c ⟨c.self_mem_subtrees, other⟩
  -- Only declarators are tainted without being lowered, and none stands among the values.
  · refine ⟨Tree.subtree_of_judged asked.1 mem, ?_⟩
    exact values u (Tree.subtrees_trans below asked.1) (some v) (Kind.values_of_judged mem)
  · rw [k.tainted_eq distinct split (Tree.subtrees_trans below asked.1) asked.2]
    exact same u asked.1
  · have bound : k.boundAfter R before = fun b => decide (b ∈ (k.plan before {}).bindings) :=
      funext (k.boundAfter_eq distinct chooses split)
    simp only [evidence, known, bound]

theorem chosen_eq {v : Visit} (chooses : k.Chooses T R) (split : T.tour none = before ++ v :: after)
    (turn : v.isTurn k.constructor = true) : R v.tree.tag = k.marks (k.plan before {}) v := by
  have inside : v.tree.tag ∈ T.ids := List.mem_map_of_mem (Tree.mem_subtrees_of_split split)
  rw [chooses _ inside, Bool.eq_iff_iff, decide_eq_true_eq]
  exact k.mem_replaced_iff_marks distinct split turn

theorem chosen_eq_of_early (chooses : k.Chooses T R)
    (split : T.tour none = before ++ ⟨false, n, enclosing⟩ :: after)
    (early : n.isLate k.constructor = false) :
    R n.tag = n.isLoweredOnEntry (k.evidence (k.plan before {})) := by
  have turn : (⟨false, n, enclosing⟩ : Visit).isTurn k.constructor = true := by
    simp [Visit.isTurn, early]
  exact k.chosen_eq distinct chooses split turn

theorem not_mem_replaced (split : T.tour none = before ++ ⟨false, n, enclosing⟩ :: after)
    (below : u ∈ n.subtrees) : u.tag ∉ (k.plan before {}).replaced := by
  intro mem
  obtain ⟨v, marked, same⟩ := k.mem_replaced_iff.mp mem
  have visited := ((k.mem_marked_iff_turn distinct split).mp marked).1
  exact Tree.tag_ne_of_before distinct split below visited same

/-- An assignment is lowered if it was postponed when it was entered. -/
theorem chosen_eq_of_assign (chooses : k.Chooses T R)
    (split : T.tour none = before ++ ⟨false, n, enclosing⟩ :: after) {op : AssignOp}
    {target value : Tree.Part Nat Name} (kind : n.kind = .assign op target value) :
    R n.tag = n.isPostponed (k.evidence (k.plan before {})) := by
  obtain ⟨last, whole⟩ := Tree.tour_at_enter distinct split
  have left : T.tour none = (before ++ ⟨false, n, enclosing⟩ ::
      n.children.flatMap (Tree.tour · (n.inner enclosing))) ++ ⟨true, n, enclosing⟩ :: last := by
    rw [whole, n.tour_eq]
    simp
  have turn : (⟨true, n, enclosing⟩ : Visit).isTurn k.constructor = true := by
    simp [Visit.isTurn, Tree.isLate, kind]
  have waiting : n.tag ∉ (k.plan before {}).pending := by
    intro pending
    rcases k.mem_pending_plan pending with start | ⟨v, visited, same, -⟩
    · cases start
    · exact Tree.tag_ne_of_before distinct split n.self_mem_subtrees visited same
  have entry : n.isLoweredOnEntry (k.evidence (k.plan before {})) = false := by
    simp [Tree.isLoweredOnEntry, kind]
  have member (e : Evidence) : n.isBigMemberCall e = false := by
    simp [Tree.isBigMemberCall, kind]
  have own := Tree.nodup_subtree distinct (Tree.mem_subtrees_of_split split)
  have steps : k.plan (before ++ ⟨false, n, enclosing⟩ ::
      n.children.flatMap (Tree.tour · (n.inner enclosing))) {} =
      k.plan (n.children.flatMap (Tree.tour · (n.inner enclosing)))
        (k.enter (k.plan before {}) n enclosing) := by
    rw [plan_append]
    rfl
  -- It is pending when it is left exactly if it became so when it was entered.
  have marks := k.chosen_eq distinct chooses left turn
  rw [steps] at marks
  simp only [Policy.marks, member, Bool.and_false, Bool.or_false, if_true] at marks
  rw [marks]
  cases postponed : n.isPostponed (k.evidence (k.plan before {})) with
  | true =>
    refine decide_eq_true (k.pending_subset_plan _ _ ?_)
    simp [enter, entry, postponed]
  | false =>
    rw [k.enter_of_not enclosing entry postponed]
    exact decide_eq_false (k.not_mem_pending_below own waiting _)

theorem chosen_eq_of_operation (values : T.ValuesInPlace) (chooses : k.Chooses T R)
    (split : T.tour none = before ++ ⟨false, n, enclosing⟩ :: after)
    (operation : n.isOperation = true) :
    R n.tag = n.isBig (k.known R before fun _ => false) := by
  have below : n ∈ T.subtrees := Tree.mem_subtrees_of_split split
  obtain ⟨other, source⟩ := Tree.plain_of_isOperation operation (k.evidence (k.plan before {}))
  have nothing : ∀ u ∈ n.subtrees, decide (u.tag ∈ (k.plan before {}).replaced) = false :=
    fun u inside => decide_eq_false (k.not_mem_replaced distinct split inside)
  have untainted : (k.evidence (k.plan before {})).tainted n.tag = false := by
    rw [k.tainted_eq distinct split below other]
    exact nothing n n.self_mem_subtrees
  rw [← k.isBig_eq_known distinct values chooses split below other nothing, Tree.isBig_eq,
    untainted, source, Bool.false_or, Bool.false_or]
  cases kind : n.kind with
  | binary | unary =>
    rw [k.chosen_eq_of_early distinct chooses split (by simp [Tree.isLate, kind])]
    simp only [Tree.isLoweredOnEntry, Tree.hasBigOperand, kind]
  | assign =>
    rw [k.chosen_eq_of_assign distinct chooses split kind]
    simp only [Tree.isPostponed, Tree.hasBigOperand, kind]
  | _ => simp [Tree.isOperation, kind] at operation

/-- When a node is left, what is below it is lowered if it is lowered in the end. -/
theorem mem_replaced_iff_below (split : T.tour none = before ++ ⟨true, n, enclosing⟩ :: after)
    (child : c ∈ n.children) (below : u ∈ c.subtrees) :
    u.tag ∈ (k.plan before {}).replaced ↔ u.tag ∈ (k.plan (T.tour none) {}).replaced := by
  rw [mem_replaced_iff]
  constructor
  · rintro ⟨v, marked, same⟩
    exact same ▸ ((k.mem_marked_iff_turn distinct split).mp marked).2.2
  · intro replaced
    obtain ⟨first, rfl⟩ := Tree.tour_at_leave distinct split
    obtain ⟨inside, visited⟩ :=
      Tree.mem_tour_of_subtree below (n.inner enclosing) (u.isLate k.constructor)
    refine ⟨⟨u.isLate k.constructor, u, inside⟩,
      (k.mem_marked_iff_turn distinct split).mpr ⟨?_, ?_, replaced⟩, rfl⟩
    · exact List.mem_append_right first (List.mem_cons_of_mem _
        (List.mem_flatMap.mpr ⟨c, child, visited⟩))
    · simp [Visit.isTurn]

theorem chosen_eq_of_call (values : T.ValuesInPlace) (chooses : k.Chooses T R)
    (split : T.tour none = before ++ ⟨true, n, enclosing⟩ :: after) {callee : Tree.Part Nat Name}
    {args : List (Tree.Part Nat Name)} (kind : n.kind = .call callee args)
    (other : n.isConstructorCall k.constructor = false) :
    R n.tag = (k.memberCalls && callee.any Tree.isMember &&
      args.any fun part => part.any (Tree.isBig (k.known R before R))) := by
  have below : n ∈ T.subtrees := Tree.mem_subtrees_of_split split
  have turn : (⟨true, n, enclosing⟩ : Visit).isTurn k.constructor = true := by
    simp [Visit.isTurn, Tree.isLate, kind, other]
  have waiting : n.tag ∉ (k.plan before {}).pending := by
    intro pending
    obtain ⟨e, postponed⟩ := k.postponed_of_pending distinct split below pending
    simp [Tree.isPostponed, kind] at postponed
  have member : callee.any (fun c => c.isMember && !c.isConstructor k.constructor) =
      callee.any Tree.isMember := by
    unfold Tree.isConstructorCall at other
    rw [kind] at other
    cases callee with
    | none => rfl
    | some c =>
      have plain : c.isConstructor k.constructor = false := other
      simp [plain]
  have judged : (args.any fun part => part.any (Tree.isBig (k.evidence (k.plan before {})))) =
      args.any fun part => part.any (Tree.isBig (k.known R before R)) := by
    refine any_congr_of_mem fun part mem => ?_
    cases part with
    | none => rfl
    | some c =>
      have child : c ∈ n.children := Tree.child_of_arg kind mem
      have inside := Tree.subtrees_trans below (Tree.child_mem_subtrees child)
      refine k.isBig_eq_known distinct values chooses split inside ?_ fun u deep => ?_
      · exact values n below (some c) (by simpa [kind, Kind.values] using mem)
      · rw [chooses _ (List.mem_map_of_mem (Tree.subtrees_trans inside deep))]
        exact decide_eq_decide.mpr (k.mem_replaced_iff_below distinct split child deep)
  have marks := k.chosen_eq distinct chooses split turn
  simp only [Policy.marks, waiting, decide_false, Bool.false_or, if_true, Tree.isBigMemberCall,
    kind] at marks
  rw [marks, ← judged, ← member, Bool.and_assoc]
  rfl

/-- The nodes that a plan chooses are chosen by the law. -/
theorem decided (values : T.ValuesInPlace) (chooses : k.Chooses T R) : Decided k T R where
  native u below native := by
    obtain ⟨inside, mem⟩ := Tree.mem_tour_of_subtree below none false
    obtain ⟨before, after, split⟩ := List.append_of_mem mem
    have entry : u.isLoweredOnEntry (k.evidence (k.plan before {})) = true :=
      Tree.isLoweredOnEntry_of_isNative native
    rw [k.chosen_eq_of_early distinct chooses split (Tree.isLate_of_isLoweredOnEntry entry), entry]
  inert u below inert := by
    obtain ⟨inside, mem⟩ := Tree.mem_tour_of_subtree below none false
    obtain ⟨before, after, split⟩ := List.append_of_mem mem
    rw [k.chosen_eq_of_early distinct chooses split (Tree.isLate_of_isInert inert _)]
    exact (Tree.decisions_of_isInert inert _).1
  operation _ _ _ _ split operation := k.chosen_eq_of_operation distinct values chooses split operation
  call _ _ _ _ split _ _ kind other := k.chosen_eq_of_call distinct values chooses split kind other

end Policy

/-! ## The law leaves no choice -/

/-- Two choices agree at a visit, if it is then certain whether the node is lowered. -/
def Visit.Agrees (constructor : Name) (R R' : Nat → Bool) (v : Visit) : Prop :=
  v.leaving = true ∨ v.tree.isLate constructor = false → R v.tree.tag = R' v.tree.tag

namespace Decided

variable {k : Policy} {W T : Tree Nat Name} {R R' : Nat → Bool} {before : List Visit}

theorem isBig_known_eq (agree : ∀ v ∈ before, v.Agrees k.constructor R R') {c : Tree Nat Name}
    {tainted tainted' : Nat → Bool} (same : ∀ x ∈ c.ids, tainted x = tainted' x) :
    c.isBig (k.known R before tainted) = c.isBig (k.known R' before tainted') := by
  have bound : k.boundAfter R before = k.boundAfter R' before := by
    funext b
    refine any_congr_of_mem fun v mem => ?_
    cases turn : v.isTurn k.constructor with
    | false => rfl
    | true =>
      have certain : v.leaving = true ∨ v.tree.isLate k.constructor = false := by
        unfold Visit.isTurn at turn
        rw [← beq_iff_eq.mp turn]
        cases v.leaving <;> simp
      rw [agree v mem certain]
  refine @Tree.isBig_congr (k.known R before tainted) (k.known R' before tainted') c rfl same
    fun x _ => ?_
  simp only [Policy.known, bound]

section Two

variable (h : Decided k W R) (h' : Decided k W R')

include h h'

/-- All but calls of something else than the constructor are certain when they are entered. -/
theorem agree_enter {enclosing : Slot} {after : List Visit}
    (split : W.tour none = before ++ ⟨false, T, enclosing⟩ :: after)
    (agree : ∀ v ∈ before, v.Agrees k.constructor R R')
    (certain : (∀ callee args, T.kind ≠ .call callee args) ∨
      T.isConstructorCall k.constructor = true) : R T.tag = R' T.tag := by
  have below : T ∈ W.subtrees := Tree.mem_subtrees_of_split split
  have native (source : T.isNative k.constructor = true) : R T.tag = R' T.tag :=
    (h.native T below source).trans (h'.native T below source).symm
  have operation (op : T.isOperation = true) : R T.tag = R' T.tag := by
    rw [h.operation _ _ _ _ split op, h'.operation _ _ _ _ split op]
    exact isBig_known_eq agree fun _ _ => rfl
  cases kind : T.kind with
  | bigInt => exact native (by simp [Tree.isNative, kind])
  | call callee args =>
    rcases certain with other | constructor
    · exact (other _ _ kind).elim
    · exact native (by simpa [Tree.isNative, Tree.isConstructorCall, kind] using constructor)
  | binary | unary | assign => exact operation (by simp [Tree.isOperation, kind])
  | _ =>
    have inert : T.kind.isInert = true := by rw [kind]; rfl
    exact (h.inert T below inert).trans (h'.inert T below inert).symm

variable (distinct : W.ids.Nodup)

include distinct

/-- When it is left every node is certain. -/
theorem agree_leave {enclosing : Slot} {after : List Visit}
    (split : W.tour none = before ++ ⟨true, T, enclosing⟩ :: after)
    (agree : ∀ v ∈ before, v.Agrees k.constructor R R') : R T.tag = R' T.tag := by
  obtain ⟨first, visited⟩ := Tree.tour_at_leave distinct split
  by_cases call : ∃ callee args, T.kind = .call callee args ∧
      T.isConstructorCall k.constructor = false
  · obtain ⟨callee, args, kind, other⟩ := call
    rw [h.call _ _ _ _ split _ _ kind other, h'.call _ _ _ _ split _ _ kind other]
    refine congrArg _ (any_congr_of_mem fun part mem => ?_)
    cases part with
    | none => rfl
    | some c =>
      refine isBig_known_eq agree fun x inside => ?_
      obtain ⟨u, deep, rfl⟩ := List.mem_map.mp inside
      obtain ⟨inner, later⟩ := Tree.mem_tour_of_subtree deep (T.inner enclosing) true
      refine agree ⟨true, u, inner⟩ ?_ (.inl rfl)
      rw [visited]
      exact List.mem_append_right first (List.mem_cons_of_mem _
        (List.mem_flatMap.mpr ⟨c, Tree.child_of_arg kind mem, later⟩))
  -- An assignment had to wait for this visit, but was certain when it was entered.
  · subst visited
    have entered : W.tour none = first ++ ⟨false, T, enclosing⟩ ::
        (T.children.flatMap (Tree.tour · (T.inner enclosing)) ++ ⟨true, T, enclosing⟩ :: after) := by
      rw [split]
      simp
    refine agree_enter h h' entered (fun v mem => agree v (List.mem_append_left _ mem)) ?_
    by_contra late
    rw [not_or, not_forall, Bool.not_eq_true] at late
    obtain ⟨⟨callee, some⟩, other⟩ := late
    obtain ⟨args, kind⟩ := not_forall.mp some
    exact call ⟨callee, args, not_not.mp kind, other⟩

/-- By induction along the tour, two choices agree at every visit. -/
theorem agree_before {after : List Visit} (split : W.tour none = before ++ after) :
    ∀ v ∈ before, v.Agrees k.constructor R R' := by
  induction before using List.reverseRecOn generalizing after with
  | nil => simp
  | append_singleton before v ih =>
    rw [List.append_assoc] at split
    have agree := ih split
    intro w mem
    rcases List.mem_append.mp mem with earlier | last
    · exact agree w earlier
    · rw [List.mem_singleton.mp last]
      obtain ⟨leaving, T, enclosing⟩ := v
      intro certain
      cases leaving with
      | true => exact agree_leave h h' distinct split agree
      | false =>
        have early : T.isLate k.constructor = false := by simpa using certain
        refine agree_enter h h' split agree ?_
        unfold Tree.isLate at early
        cases kind : T.kind <;> simp_all

/-- There is one choice only that follows the law. -/
theorem unique {x : Nat} (mem : x ∈ W.ids) : R x = R' x := by
  obtain ⟨u, below, rfl⟩ := List.mem_map.mp mem
  obtain ⟨inside, visited⟩ := Tree.mem_tour_of_subtree below none true
  have split : W.tour none = W.tour none ++ [] := (List.append_nil _).symm
  exact agree_before h h' distinct split _ visited (.inl rfl)

end Two

end Decided

/-! ## Lowering follows the law -/

theorem Policy.plan_tour_of_isInert (k : Policy) {T : Tree Nat Name} (distinct : T.ids.Nodup)
    (inert : T.kind.isInert = true) {P : Plan} (waiting : T.tag ∉ P.pending) (enclosing : Slot) :
    k.plan (T.tour enclosing) P =
      k.plan (T.children.flatMap (Tree.tour · (T.inner enclosing))) P := by
  obtain ⟨entry, postponed, -⟩ := Tree.decisions_of_isInert inert (k.evidence P)
  rw [plan_tour, k.enter_of_not enclosing entry postponed]
  exact k.leave_of_not enclosing (k.not_mem_pending_below distinct waiting _) fun _ =>
    (Tree.decisions_of_isInert inert _).2.2

namespace UnitRun

variable {τ : Type} [Naming τ] {config : Config} {names : τ} {s : Store} {T : Tree Nat Name}

/-- The import makes no difference to the plan. -/
theorem plan_eq (run : UnitRun config s T names) (h : WellFormed s T) (k : Policy) :
    k.plan (run.setup.tree.tour none) {} = k.plan (T.tour none) {} := by
  obtain ⟨body, program, -⟩ := h.program
  have whole := run.tree.trans (Tree.withImport_eq program _ _ s.size)
  have inner₁ : run.setup.tree.inner none = none := by rw [whole]; rfl
  have inner₂ : T.inner none = none := by rw [Tree.inner, program]
  rw [k.plan_tour_of_isInert run.setup.distinct (by rw [whole]; rfl) List.not_mem_nil,
    k.plan_tour_of_isInert h.distinct (by rw [program]; rfl) List.not_mem_nil, inner₁, inner₂,
    run.children h, List.flatMap_cons, Policy.plan_append]
  congr 1
  refine k.plan_of_isInert fun v visited => ⟨?_, List.not_mem_nil⟩
  have leaf := Tree.mem_subtrees_of_tour visited
  rw [Tree.subtrees_eq] at leaf
  rw [List.mem_singleton.mp leaf]
  rfl

theorem chooses (run : UnitRun config s T names) (h : WellFormed s T) :
    run.setup.policy.Chooses T fun x => run.final.facts.isReplaced (some x) := by
  intro x mem
  rw [← run.plan_eq h]
  exact run.progress.replaced x ((run.mem_ids h).mpr (.inr mem))

theorem not_replaced (run : UnitRun config s T names) (h : WellFormed s T) {x : Nat}
    (old : x < s.size) (outside : x ∉ T.ids) : run.final.facts.isReplaced (some x) = false := by
  have start : x < (run.setup.start (config.intern names).2).store.size := by
    show x < run.setup.store.size
    rw [run.size]
    omega
  have away : x ∉ run.setup.tree.ids := by
    rw [run.mem_ids h, not_or]
    exact ⟨Nat.ne_of_lt old, outside⟩
  exact ((run.done.flags x start away).1).trans (by simp [Setup.start, Facts.isReplaced])

theorem replaced_of_literal (run : UnitRun config s T names) (h : WellFormed s T)
    (values : T.ValuesInPlace) {u value : Tree Nat Name} (below : u ∈ T.subtrees) {op : AssignOp}
    {target : Tree.Part Nat Name} (kind : u.kind = .assign op target (some value))
    (method : op.method?.isSome = true) {digits : Name} (literal : value.kind = .bigInt digits) :
    run.final.facts.isReplaced (some u.tag) = true := by
  have law := run.setup.policy.decided h.distinct values (run.chooses h)
  obtain ⟨inside, visited⟩ := Tree.mem_tour_of_subtree below none false
  obtain ⟨before, after, split⟩ := List.append_of_mem visited
  have operation : u.isOperation = true := by simp [Tree.isOperation, kind]
  rw [law.operation before u inside after split operation, Tree.isBig_eq]
  have source (e : Evidence) : value.isBig e = true := by
    simp [Tree.isBig_eq, Tree.isSource, literal]
  simp [kind, Kind.judged, method, source]

end UnitRun

/--
In a well-formed unit without declarators in the places of values, the nodes that
are replaced are those that the law decides on, and no other choice follows the law.
-/
theorem lower_decided {s : Store} {T : Tree Nat Name} (h : WellFormed s T)
    (values : T.ValuesInPlace) (config : Config) {names : Names} (consistent : names.Consistent)
    (room : ¬ Overflows (lower config s (some T.tag) names)) :
    ∃ (store : Store) (names' : Names) (outcome : Outcome) (L : LibraryNames) (scopes : Scopes),
      lower config s (some T.tag) names = .ok ⟨store, names', .ok outcome⟩ ∧
      config.Named names' L ∧ s.resolve (some T.tag) = .ok scopes ∧
      (∀ lowered, Decided ⟨L.constructor, config.memberCalls, scopes⟩ T lowered ↔
        ∀ x ∈ T.ids, lowered x = outcome.facts.isReplaced (some x)) ∧
      ∀ x < s.size, x ∉ T.ids → outcome.facts.isReplaced (some x) = false := by
  obtain ⟨run⟩ := h.run config names
  obtain ⟨facts, ran, replaced⟩ := run.lower_eq room
  have law {lowered : Nat → Bool}
      (choice : ∀ x ∈ T.ids, lowered x = run.final.facts.isReplaced (some x)) :
      Decided ⟨run.setup.library.constructor, config.memberCalls, run.setup.scopes⟩ T lowered := by
    rw [← run.memberCalls]
    exact run.setup.policy.decided h.distinct values fun x mem =>
      (choice x mem).trans (run.chooses h x mem)
  refine ⟨_, _, _, run.setup.library, run.setup.scopes, ran, run.named consistent, run.resolved,
    fun lowered => ⟨fun decided x mem => ?_, fun choice => ?_⟩, fun x old outside => ?_⟩
  · exact (decided.unique (law fun _ _ => rfl) h.distinct mem).trans (replaced (some x)).symm
  · exact law fun x mem => (choice x mem).trans (replaced (some x))
  · exact (replaced (some x)).trans (run.not_replaced h old outside)

/-- In the sample `1 + 2` is not lowered, and `-a` is for the sake of the declaration of `a`. -/
theorem lower_decided_sample :
    WellFormed Sample.store Sample.tree ∧ Sample.tree.ValuesInPlace ∧ Sample.names.Consistent ∧
    ¬ Overflows (lower {} Sample.store (some Sample.tree.tag) Sample.names) ∧
    ∃ (store : Store) (names' : Names) (outcome : Outcome) (L : LibraryNames) (scopes : Scopes),
      lower {} Sample.store (some Sample.tree.tag) Sample.names =
        .ok ⟨store, names', .ok outcome⟩ ∧
      ({} : Config).Named names' L ∧
      Sample.store.resolve (some Sample.tree.tag) = .ok scopes ∧
      (∀ lowered, Decided ⟨L.constructor, ({} : Config).memberCalls, scopes⟩ Sample.tree lowered ↔
        ∀ x ∈ Sample.tree.ids, lowered x = outcome.facts.isReplaced (some x)) ∧
      ∀ x < Sample.store.size, x ∉ Sample.tree.ids →
        outcome.facts.isReplaced (some x) = false :=
  ⟨Sample.wellFormed, by decide +kernel, Sample.consistent, Sample.room,
    lower_decided Sample.wellFormed (by decide +kernel) {} Sample.consistent Sample.room⟩

end BigLower
