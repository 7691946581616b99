import BigLower.Proofs.Lowering

/-! # The plan of a pass

A pass enters every node before all below it and leaves it after. Which nodes it
lowers can be planned from the tree alone: walk along this tour and note which
nodes are lowered, and which declarators and bindings are tainted by that.
-/

namespace BigLower

/-- A moment of the tour: a node is entered or left, inside the declarator `enclosing`. -/
structure Visit where
  leaving : Bool
  tree : Tree Nat Name
  enclosing : Slot

structure Policy where
  constructor : Name
  memberCalls : Bool
  scopes : Scopes

/-- What is lowered and tainted so far, and which assignments are to be lowered when left. -/
structure Plan where
  replaced : List Nat := []
  declarators : List Nat := []
  bindings : List Nat := []
  pending : List Nat := []
deriving DecidableEq

namespace Tree

/-! ## Tours -/

def inner (T : Tree Nat Name) (enclosing : Slot) : Slot :=
  match T.kind with
  | .declarator .. => some T.tag
  | _ => enclosing

def tour : Tree Nat Name → Slot → List Visit :=
  fold fun T below enclosing =>
    ⟨false, T, enclosing⟩ :: below.flatMap (fun visits => visits (T.inner enclosing)) ++
      [⟨true, T, enclosing⟩]

theorem tour_eq (T : Tree Nat Name) (enclosing : Slot) :
    T.tour enclosing =
      ⟨false, T, enclosing⟩ :: T.children.flatMap (tour · (T.inner enclosing)) ++
        [⟨true, T, enclosing⟩] := by
  unfold tour
  rw [fold_eq, List.flatMap_map]

theorem mem_subtrees_of_tour {T : Tree Nat Name} {enclosing : Slot} {v : Visit}
    (mem : v ∈ T.tour enclosing) : v.tree ∈ T.subtrees := by
  induction T using induction generalizing enclosing with
  | step T ih =>
    rw [tour_eq] at mem
    rcases List.mem_append.mp mem with first | last
    · rcases List.mem_cons.mp first with rfl | below
      · exact T.self_mem_subtrees
      · obtain ⟨c, child, inside⟩ := List.mem_flatMap.mp below
        exact mem_subtrees_of_child child (ih c child inside)
    · rw [List.mem_singleton.mp last]
      exact T.self_mem_subtrees

/-! ## Decisions -/

def hasBigOperand (e : Evidence) (T : Tree Nat Name) : Bool :=
  T.kind.judged.any fun part => part.any (isBig e)

def isLoweredOnEntry (e : Evidence) (T : Tree Nat Name) : Bool :=
  match T.kind with
  | .bigInt _ => true
  | .call callee _ => callee.any (isConstructor e.constructor)
  | .binary .. | .unary .. => T.hasBigOperand e
  | _ => false

def isPostponed (e : Evidence) (T : Tree Nat Name) : Bool :=
  match T.kind with
  | .assign .. => T.hasBigOperand e
  | _ => false

/-- Whether the top is a member call, other than of the constructor, with a big-integer argument. -/
def isBigMemberCall (e : Evidence) (T : Tree Nat Name) : Bool :=
  match T.kind with
  | .call callee args =>
    callee.any (fun c => c.isMember && !c.isConstructor e.constructor) &&
      args.any fun part => part.any (isBig e)
  | _ => false

theorem decisions_of_isInert {T : Tree Nat Name} (inert : T.kind.isInert = true) (e : Evidence) :
    T.isLoweredOnEntry e = false ∧ T.isPostponed e = false ∧ T.isBigMemberCall e = false := by
  unfold isLoweredOnEntry isPostponed isBigMemberCall
  cases kind : T.kind <;> first | exact ⟨rfl, rfl, rfl⟩ | (rw [kind] at inert; cases inert)

theorem isInert_of_isIdent {T u : Tree Nat Name} {name : Name} (ident : T.isIdent name = true)
    (below : u ∈ T.subtrees) : u.kind.isInert = true := by
  unfold isIdent at ident
  split at ident
  · rename_i kind
    have leaf : T.children = [] := by simp [children, kind, Kind.slots, Kind.parts]
    rw [subtrees_eq, leaf] at below
    rw [List.mem_singleton.mp below, kind]
    rfl
  · cases ident

theorem isInert_of_isConstructor {T u : Tree Nat Name} {name : Name}
    (constructor : T.isConstructor name = true) (below : u ∈ T.subtrees) : u.kind.isInert = true := by
  unfold isConstructor at constructor
  split at constructor
  · rename_i same kind
    exact isInert_of_isIdent (by simpa [isIdent, kind] using constructor) below
  · rename_i object property kind
    rcases mem_subtrees_iff.mp below with rfl | ⟨c, child, inside⟩
    · rw [kind]
      rfl
    · have here : some c = object := by
        simpa [mem_children_iff, kind, Kind.slots, Kind.parts] using child
      rw [← here] at constructor
      exact isInert_of_isIdent constructor inside
  · cases constructor

theorem isLoweredOnEntry_of_operation {T : Tree Nat Name} {method : String}
    {operands : List (Part Nat Name)} (op : T.kind.operation? = some (method, operands))
    (e : Evidence) :
    T.isLoweredOnEntry e = operands.any fun part => part.any (isBig e) := by
  have same : T.hasBigOperand e = operands.any fun part => part.any (isBig e) := by
    rw [hasBigOperand, Kind.judged_of_operation? op]
  rw [← same, isLoweredOnEntry]
  cases kind : T.kind with
  | binary | unary => rfl
  | _ => simp [kind, Kind.operation?] at op

/-- A node that is lowered when it is entered is not lowered again when it is left. -/
theorem isBigMemberCall_of_isLoweredOnEntry {e e' : Evidence} {T : Tree Nat Name}
    (entry : T.isLoweredOnEntry e = true) (same : e.constructor = e'.constructor) :
    T.isBigMemberCall e' = false := by
  unfold isLoweredOnEntry at entry
  unfold isBigMemberCall
  split
  · rename_i callee args kind
    rw [kind, same] at entry
    cases callee with
    | none => rfl
    | some c =>
      have plain : c.isConstructor e'.constructor = true := entry
      simp [plain]
  · rfl

theorem inner_of_isLoweredOnEntry {e : Evidence} {T : Tree Nat Name}
    (entry : T.isLoweredOnEntry e = true) (enclosing : Slot) : T.inner enclosing = enclosing := by
  unfold isLoweredOnEntry at entry
  unfold inner
  split
  · rename_i kind
    rw [kind] at entry
    cases entry
  · rfl

end Tree

/-! ## Plans -/

namespace Policy

variable (k : Policy)

def evidence (P : Plan) : Evidence where
  constructor := k.constructor
  tainted x := decide (x ∈ P.replaced) || decide (x ∈ P.declarators)
  bound x := (k.scopes.bindingOf (some x)).any fun b => decide (b ∈ P.bindings)

def mark (P : Plan) (enclosing : Slot) (x : Nat) : Plan :=
  { P with
    replaced := x :: P.replaced
    declarators := enclosing.toList ++ P.declarators
    bindings := (k.scopes.declaredBy enclosing).toList ++ P.bindings }

def enter (P : Plan) (T : Tree Nat Name) (enclosing : Slot) : Plan :=
  if T.isLoweredOnEntry (k.evidence P) then k.mark P enclosing T.tag
  else if T.isPostponed (k.evidence P) then { P with pending := T.tag :: P.pending }
  else P

def leave (P : Plan) (T : Tree Nat Name) (enclosing : Slot) : Plan :=
  if T.tag ∈ P.pending ∨ k.memberCalls = true ∧ T.isBigMemberCall (k.evidence P) = true then
    k.mark P enclosing T.tag
  else P

def step (P : Plan) (v : Visit) : Plan :=
  if v.leaving then k.leave P v.tree v.enclosing else k.enter P v.tree v.enclosing

def plan (visits : List Visit) (P : Plan) : Plan := visits.foldl k.step P

theorem plan_append (first second : List Visit) (P : Plan) :
    k.plan (first ++ second) P = k.plan second (k.plan first P) :=
  List.foldl_append

theorem plan_tour (T : Tree Nat Name) (enclosing : Slot) (P : Plan) :
    k.plan (T.tour enclosing) P =
      k.leave (k.plan (T.children.flatMap (Tree.tour · (T.inner enclosing))) (k.enter P T enclosing))
        T enclosing := by
  rw [Tree.tour_eq, List.cons_append]
  unfold plan
  rw [List.foldl_cons, List.foldl_append]
  rfl

theorem enter_of_not {P : Plan} {T : Tree Nat Name} (enclosing : Slot)
    (entry : T.isLoweredOnEntry (k.evidence P) = false)
    (postponed : T.isPostponed (k.evidence P) = false) : k.enter P T enclosing = P := by
  simp [enter, entry, postponed]

theorem leave_of_not {P : Plan} {T : Tree Nat Name} (enclosing : Slot) (waiting : T.tag ∉ P.pending)
    (small : k.memberCalls = true → T.isBigMemberCall (k.evidence P) = false) :
    k.leave P T enclosing = P := by
  refine if_neg ?_
  rintro (pending | ⟨on, big⟩)
  · exact waiting pending
  · simp [small on] at big

/-- A plan stays as it is where nothing is decided. -/
theorem plan_of_not {visits : List Visit} {P : Plan}
    (none : ∀ v ∈ visits, v.tree.tag ∉ P.pending ∧ v.tree.isLoweredOnEntry (k.evidence P) = false ∧
      v.tree.isPostponed (k.evidence P) = false ∧ v.tree.isBigMemberCall (k.evidence P) = false) :
    k.plan visits P = P := by
  induction visits with
  | nil => rfl
  | cons v rest ih =>
    obtain ⟨waiting, entry, postponed, member⟩ := none v List.mem_cons_self
    have same : k.step P v = P := by
      unfold step
      split
      · exact k.leave_of_not v.enclosing waiting fun _ => member
      · exact k.enter_of_not v.enclosing entry postponed
    calc k.plan (v :: rest) P = k.plan rest (k.step P v) := rfl
      _ = k.plan rest P := by rw [same]
      _ = P := ih fun v' mem => none v' (List.mem_cons_of_mem v mem)

theorem plan_of_isInert {visits : List Visit} {P : Plan}
    (inert : ∀ v ∈ visits, v.tree.kind.isInert = true ∧ v.tree.tag ∉ P.pending) :
    k.plan visits P = P :=
  k.plan_of_not fun v mem =>
    ⟨(inert v mem).2, Tree.decisions_of_isInert (inert v mem).1 (k.evidence P)⟩

@[simp] theorem pending_leave (P : Plan) (T : Tree Nat Name) (enclosing : Slot) :
    (k.leave P T enclosing).pending = P.pending := by
  unfold leave
  split <;> rfl

theorem mem_pending_plan {visits : List Visit} {P : Plan} {x : Nat}
    (mem : x ∈ (k.plan visits P).pending) :
    x ∈ P.pending ∨ ∃ v ∈ visits, v.tree.tag = x ∧ ∃ e, v.tree.isPostponed e = true := by
  induction visits generalizing P with
  | nil => exact .inl mem
  | cons v rest ih =>
    rcases ih (show x ∈ (k.plan rest (k.step P v)).pending from mem) with here | ⟨v', later, same⟩
    · unfold step enter at here
      split at here
      · rw [pending_leave] at here
        exact .inl here
      · split at here
        · exact .inl here
        · split at here
          · rename_i postponed
            rcases List.mem_cons.mp here with rfl | before
            · exact .inr ⟨v, List.mem_cons_self, rfl, _, postponed⟩
            · exact .inl before
          · exact .inl here
    · exact .inr ⟨v', List.mem_cons_of_mem v later, same⟩

theorem not_mem_pending_below {T : Tree Nat Name} (distinct : T.ids.Nodup) {P : Plan}
    (waiting : T.tag ∉ P.pending) (enclosing : Slot) :
    T.tag ∉ (k.plan (T.children.flatMap (Tree.tour · enclosing)) P).pending := by
  intro pending
  rcases k.mem_pending_plan pending with before | ⟨v, visited, same, -⟩
  · exact waiting before
  · obtain ⟨c, child, inside⟩ := List.mem_flatMap.mp visited
    exact Tree.tag_not_mem_child distinct child
      (same ▸ List.mem_map_of_mem (Tree.mem_subtrees_of_tour inside))

theorem plan_tour_of_entry {T : Tree Nat Name} (distinct : T.ids.Nodup) {P : Plan}
    (waiting : T.tag ∉ P.pending) (entry : T.isLoweredOnEntry (k.evidence P) = true)
    (enclosing : Slot) :
    k.plan (T.tour enclosing) P =
      k.plan (T.children.flatMap (Tree.tour · enclosing)) (k.mark P enclosing T.tag) := by
  have first : k.enter P T enclosing = k.mark P enclosing T.tag := if_pos entry
  have waiting' : T.tag ∉ (k.mark P enclosing T.tag).pending := waiting
  rw [plan_tour, first, Tree.inner_of_isLoweredOnEntry entry]
  exact k.leave_of_not enclosing (k.not_mem_pending_below distinct waiting' enclosing) fun _ =>
    Tree.isBigMemberCall_of_isLoweredOnEntry entry rfl

theorem pending_subset_step (P : Plan) (v : Visit) : P.pending ⊆ (k.step P v).pending := by
  unfold step enter
  split
  · rw [pending_leave]
    exact List.Subset.refl _
  · split
    · exact List.Subset.refl _
    · split
      · exact List.subset_cons_self _ _
      · exact List.Subset.refl _

theorem pending_subset_plan (visits : List Visit) (P : Plan) :
    P.pending ⊆ (k.plan visits P).pending := by
  induction visits generalizing P with
  | nil => exact List.Subset.refl _
  | cons v rest ih => exact List.Subset.trans (k.pending_subset_step P v) (ih (k.step P v))

end Policy

end BigLower
