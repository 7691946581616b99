import BigLower.Proofs.Steps

/-! # The flow of a pass

What is done at a node depends on its kind and on the answers of the judge. Each
way through the walk is put together from the runs of its parts.
-/

namespace BigLower

theorem Engine.declaratorBelow_eq {s : Store} {T : Tree Nat Name} (holds : s.Holds T)
    (enclosing : Slot) : Engine.declaratorBelow s enclosing T.tag = T.inner enclosing := by
  obtain ⟨range, span, found, -⟩ := Store.shape_tree_iff.mp holds.top
  unfold Engine.declaratorBelow Tree.inner
  rw [found]
  cases T.kind <;> rfl

namespace Setup

variable {τ α : Type} {C : Setup}

def Untouched (q : Pass τ) (x : Nat) : Prop :=
  q.facts.isReplaced (some x) = false ∧ q.facts.isSettled (some x) = false

namespace Runs

theorem lift_ok_bind {S β : Type} (a : α) (k : α → StateT S (Except Fault) β) :
    ((liftM (Except.ok a : Except Fault α) : StateT S (Except Fault) α) >>= k) = k a := rfl

variable {q q₁ q₂ q' : Pass τ} {enclosing : Slot} {x : Nat}

/-! ## Going below -/

theorem forM_nil {β : Type} (walk : Judge → β → PassM τ Unit) :
    C.Runs (fun judge => [].forM (walk judge)) q () q :=
  pure () q

theorem forM_cons {β : Type} {walk : Judge → β → PassM τ Unit} {b : β} {rest : List β}
    (first : C.Runs (fun judge => walk judge b) q () q₁)
    (second : C.Runs (fun judge => rest.forM (walk judge)) q₁ () q') :
    C.Runs (fun judge => (b :: rest).forM (walk judge)) q () q' :=
  bind first second

theorem descend {walk : Judge → Slot → Nat → PassM τ Unit} {T : Tree Nat Name}
    (holds : q.store.Holds T)
    (run : C.Runs (fun judge => (T.children.map Tree.tag).forM (walk judge (T.inner enclosing)))
      q () q') :
    C.Runs (fun judge => Engine.descend (walk judge) enclosing T.tag) q () q' := by
  unfold Engine.descend
  refine get (fun judge f _ _ => ?_) run
  simp only [holds.children, lift_ok_bind, Engine.declaratorBelow_eq holds]

/-! ## Entering -/

variable [Naming τ]

theorem enter {n : Node} {step : Step} (fresh : Untouched q x)
    (found : q.store.node? (some x) = some n)
    (run : C.Runs (fun judge => (C.engine judge).enterNode enclosing x n) q step q') :
    C.Runs (fun judge => (C.engine judge).enter enclosing x) q step q' := by
  have read := Store.node_eq_ok_iff.mpr found
  unfold Engine.enter
  refine get (fun judge f replaced settled => ?_) run
  have unreplaced : (f.flagsOf (some x)).replaced = false := (replaced (some x)).trans fresh.1
  have unsettled : (f.flagsOf (some x)).settled = false := (settled (some x)).trans fresh.2
  simp only [unreplaced, unsettled, read, lift_ok_bind, Bool.or_self, Bool.false_eq_true, if_false]

theorem enterNode_idle {n : Node} (literal : ∀ digits, n.kind ≠ .bigInt digits)
    (call : ∀ callee args, n.kind ≠ .call callee args) (idle : n.kind.judged = []) :
    C.Runs (fun judge => (C.engine judge).enterNode enclosing x n) q .below q := by
  obtain ⟨kind, span⟩ := n
  cases kind with
  | bigInt digits => exact (literal digits rfl).elim
  | call callee args => exact (call callee args rfl).elim
  | binary op left right | unary op operand | assign op target value =>
    cases method : op.method? with
    | none =>
      simp only [Engine.enterNode, method]
      exact pure Step.below q
    | some text => simp [Kind.judged, method] at idle
  | _ => exact pure Step.below q

theorem tryOperation_true {span : Span} {method : String} {operands : List Slot} {rule : Rule}
    (big : C.Runs (fun judge => (C.engine judge).someBig operands) q true q₁)
    (run : C.Runs (fun judge => (C.engine judge).lowerOperation enclosing x span method operands rule)
      q₁ () q') :
    C.Runs (fun judge =>
      (C.engine judge).tryOperation enclosing x span (some method) operands rule) q () q' :=
  bind big run

theorem tryOperation_false {span : Span} {method? : Option String} {operands : List Slot}
    {rule : Rule} (small : method?.isSome = true →
      C.Runs (fun judge => (C.engine judge).someBig operands) q false q) :
    C.Runs (fun judge =>
      (C.engine judge).tryOperation enclosing x span method? operands rule) q () q := by
  cases method? with
  | none => exact pure () q
  | some method => exact bind (small rfl) (pure () q)

/-- On entering an operation that has a method, the rule that is for it is tried. -/
theorem enterNode_operation (C : Setup) (q : Pass τ) (enclosing : Slot) {T : Tree Nat Name}
    {method : String} {operands : List (Tree.Part Nat Name)}
    (op : T.kind.operation? = some (method, operands)) (constructor : Name) (range : Range)
    (span : Span) : ∃ rule, T.rule? constructor = some rule ∧ ∀ q',
      C.Runs (fun judge => (C.engine judge).tryOperation enclosing T.tag span (some method)
        (operands.map (Option.map Tree.tag)) rule) q () q' →
      C.Runs (fun judge => (C.engine judge).enterNode enclosing T.tag
        ⟨T.kind.map (Option.map Tree.tag) fun _ => range, span⟩) q .below q' := by
  unfold Tree.rule?
  cases kind : T.kind with
  | binary op' left right =>
    rw [kind] at op
    obtain ⟨_, found, same⟩ := Option.map_eq_some_iff.mp op
    cases same
    refine ⟨.binary, rfl, fun q' run => ?_⟩
    simp only [Kind.map, Engine.enterNode, found]
    exact bind run (pure Step.below q')
  | unary op' operand =>
    rw [kind] at op
    obtain ⟨_, found, same⟩ := Option.map_eq_some_iff.mp op
    cases same
    refine ⟨.unary, rfl, fun q' run => ?_⟩
    simp only [Kind.map, Engine.enterNode, found]
    exact bind run (pure Step.below q')
  | _ => simp [kind, Kind.operation?] at op

/-- An assignment with a method is postponed if the judge finds its value big. -/
theorem enterNode_assign {op : AssignOp} {method : String} (found : op.method? = some method)
    {target value : Slot} {span : Span} {big : Bool}
    (asked : C.Runs (fun judge => (C.engine judge).someBig [value]) q big q) :
    C.Runs (fun judge => (C.engine judge).enterNode enclosing x ⟨.assign op target value, span⟩) q
      (if big then .compound method target value else .below) q := by
  simp only [Engine.enterNode, found]
  exact bind asked (pure _ q)

/-! ## Leaving -/

theorem leave_replaced (replaced : q.facts.isReplaced (some x) = true) :
    C.Runs (fun judge => (C.engine judge).leave enclosing x) q () q := by
  unfold Engine.leave
  refine get (fun judge f same _ => ?_) (pure () q)
  simp [same, replaced]

theorem leave_other {k : NodeKind} (kind : q.store.kind (some x) = .ok k)
    (other : ∀ callee args, k ≠ .call callee args) :
    C.Runs (fun judge => (C.engine judge).leave enclosing x) q () q := by
  unfold Engine.leave
  refine get (fun judge f _ _ => ?_) (pure () q)
  simp only [kind, lift_ok_bind]
  split <;> rfl

theorem leave_plain {callee : Slot} {args : Range} {k : NodeKind}
    (kind : q.store.kind (some x) = .ok (.call callee args))
    (inside : q.store.kind callee = .ok k) (other : ∀ object property, k ≠ .member object property) :
    C.Runs (fun judge => (C.engine judge).leave enclosing x) q () q := by
  unfold Engine.leave
  refine get (fun judge f _ _ => ?_) (pure () q)
  simp only [kind, inside, lift_ok_bind]
  split <;> rfl

theorem leave_member {callee object : Slot} {args : Range} {property : Name} {slots : List Slot}
    (on : C.memberCalls = true) (unreplaced : q.facts.isReplaced (some x) = false)
    (kind : q.store.kind (some x) = .ok (.call callee args))
    (inside : q.store.kind callee = .ok (.member object property))
    (list : q.store.list args = .ok slots)
    (run : C.Runs (fun judge => do
      if ← (C.engine judge).someBig slots then
        (C.engine judge).redirectMember callee object property
        Engine.applied enclosing x .methodCall) q () q') :
    C.Runs (fun judge => (C.engine judge).leave enclosing x) q () q' := by
  unfold Engine.leave
  refine get (fun judge f same _ => ?_) run
  have guard : ((C.engine judge).memberCalls && !f.isReplaced (some x)) = true := by
    simp [engine, on, same, unreplaced]
  simp only [guard, if_true, kind, inside, list, lift_ok_bind]

theorem leave_off (off : C.memberCalls = false) :
    C.Runs (fun judge => (C.engine judge).leave enclosing x) q () q := by
  unfold Engine.leave
  refine get (fun judge f _ _ => ?_) (pure () q)
  simp [engine, off]

theorem redirect_other {callee object : Slot} {property : Name}
    (other : q.store.isIdent object C.library.math = false) :
    C.Runs (fun judge => (C.engine judge).redirectMember callee object property) q () q := by
  unfold Engine.redirectMember
  refine get (fun judge f _ _ => ?_) (pure () q)
  simp [engine, other]

theorem redirect_math {callee object : Slot} {property : Name} {s₁ s₂ : Store}
    (math : q.store.isIdent object C.library.math = true)
    (first : q.store.replace object (.ident C.library.library) = .ok s₁)
    (second : s₁.replace callee (.member object
      (Naming.intern q.names (mathMethod (Naming.text q.names property))).1) = .ok s₂) :
    C.Runs (fun judge => (C.engine judge).redirectMember callee object property) q ()
      { q with
        store := s₂
        names := (Naming.intern q.names (mathMethod (Naming.text q.names property))).2 } := by
  unfold Engine.redirectMember
  refine get (m := fun _ => do
    let property ← PassM.intern (mathMethod (Naming.text q.names property))
    PassM.replace object (.ident C.library.library)
    PassM.replace callee (.member object property)) (fun _ _ _ _ => if_pos math) ?_
  exact bind (intern _) (bind (replace first) (replace second))

/-! ## The walk -/

section Walk

variable {fuel : Nat} (inside : x < q.store.size)

include inside

theorem lowerWithin_done
    (entered : C.Runs (fun judge => (C.engine judge).enter enclosing x) q .done q') :
    C.Runs (fun judge => (C.engine judge).lowerWithin (fuel + 1) enclosing x) q ()
      { q' with facts := q'.facts.markSettled (some x) } := by
  unfold Engine.lowerWithin
  exact get (fun _ _ _ _ => if_pos (decide_eq_true inside)) (bind entered (settle x))

theorem lowerWithin_below
    (entered : C.Runs (fun judge => (C.engine judge).enter enclosing x) q .below q₁)
    (below : C.Runs (fun judge =>
      Engine.descend ((C.engine judge).lowerWithin fuel) enclosing x) q₁ () q₂)
    (left : C.Runs (fun judge => (C.engine judge).leave enclosing x) q₂ () q') :
    C.Runs (fun judge => (C.engine judge).lowerWithin (fuel + 1) enclosing x) q ()
      { q' with facts := q'.facts.markSettled (some x) } := by
  unfold Engine.lowerWithin
  exact get (fun _ _ _ _ => if_pos (decide_eq_true inside))
    (bind entered (bind below (bind left (settle x))))

theorem lowerWithin_compound {method : String} {target value : Slot}
    (entered : C.Runs (fun judge => (C.engine judge).enter enclosing x) q
      (.compound method target value) q₁)
    (below : C.Runs (fun judge =>
      Engine.descend ((C.engine judge).lowerWithin fuel) enclosing x) q₁ () q₂)
    (left : C.Runs (fun judge =>
      (C.engine judge).lowerCompound enclosing x method target value) q₂ () q') :
    C.Runs (fun judge => (C.engine judge).lowerWithin (fuel + 1) enclosing x) q ()
      { q' with facts := q'.facts.markSettled (some x) } := by
  unfold Engine.lowerWithin
  exact get (fun _ _ _ _ => if_pos (decide_eq_true inside))
    (bind entered (bind below (bind left (settle x))))

end Walk

end Runs

end Setup

end BigLower
