import BigLower.Pass.Rule
import BigLower.Proofs.Judging

/-! # How often rules are used

Which rule is for a node follows from its kind, and for a call from the callee. A
tally is right if it has for every rule the number of nodes that the rule is for,
among those that were replaced. Marking one more node counts once, for its rule.
-/

namespace BigLower

namespace Tally

def uses (t : Tally) : Rule → Nat
  | .literal => t.literals
  | .constructor => t.constructorCalls
  | .binary => t.binary
  | .unary => t.unary
  | .compoundAssign => t.compoundAssignments
  | .methodCall => t.methodCalls

theorem uses_count (t : Tally) (used rule : Rule) :
    (t.count used).uses rule = t.uses rule + if used = rule then 1 else 0 := by
  cases used <;> cases rule <;> rfl

end Tally

def Kind.rule? {ν σ ρ : Type} (isConstructor : σ → Bool) : Kind ν σ ρ → Option Rule
  | .bigInt _ => some .literal
  | .call callee _ => some (if isConstructor callee then .constructor else .methodCall)
  | .binary .. => some .binary
  | .unary .. => some .unary
  | .assign .. => some .compoundAssign
  | _ => none

theorem Kind.rule?_map {ν σ ρ σ' ρ' : Type} (f : σ → σ') (g : ρ → ρ') (isConstructor : σ' → Bool)
    (k : Kind ν σ ρ) :
    (k.map f g).rule? isConstructor = k.rule? fun slot => isConstructor (f slot) := by
  cases k <;> rfl

namespace Tree

variable {constructor : Name} {T u : Tree Nat Name} {R R' : Nat → Bool}

def rule? (constructor : Name) (T : Tree Nat Name) : Option Rule :=
  T.kind.rule? (Option.any (isConstructor constructor))

theorem rule?_of_call {callee : Tree Nat Name} {args : List (Part Nat Name)}
    (call : T.kind = .call (some callee) args) (plain : callee.isConstructor constructor = false) :
    T.rule? constructor = some .methodCall := by
  simp [rule?, Kind.rule?, call, plain]

/-- The subtrees whose tops were replaced, where `marks` tells which nodes were. -/
def replaced (marks : Nat → Bool) (T : Tree Nat Name) : List (Tree Nat Name) :=
  T.subtrees.filter fun u => marks u.tag

def uses (constructor : Name) (marks : Nat → Bool) (T : Tree Nat Name) (rule : Rule) : Nat :=
  (T.replaced marks).countP fun u => decide (u.rule? constructor = some rule)

theorem uses_congr (same : ∀ x ∈ T.ids, R' x = R x) (rule : Rule) :
    T.uses constructor R' rule = T.uses constructor R rule := by
  have list : T.replaced R' = T.replaced R :=
    List.filter_congr fun u below => same u.tag (List.mem_map_of_mem below)
  rw [uses, list, uses]

/-- One more replaced node is one more use of the rule that is for it. -/
theorem uses_mark (distinct : T.ids.Nodup) (below : u ∈ T.subtrees) (kept : R u.tag = false)
    {used : Rule} (own : u.rule? constructor = some used) (rule : Rule) :
    T.uses constructor (fun x => x == u.tag || R x) rule =
      T.uses constructor R rule + if used = rule then 1 else 0 := by
  obtain ⟨before, after, split⟩ := List.append_of_mem below
  have once : ((before ++ u :: after).map tag).Nodup := split ▸ distinct
  rw [List.map_append, List.map_cons, List.nodup_middle, List.nodup_cons, List.mem_append] at once
  have others {list : List (Tree Nat Name)} (apart : u.tag ∉ list.map tag) :
      (list.filter fun v => v.tag == u.tag || R v.tag) = list.filter fun v => R v.tag := by
    refine List.filter_congr fun v mem => ?_
    have other : v.tag ≠ u.tag := fun same => apart (same ▸ List.mem_map_of_mem mem)
    rw [beq_false_of_ne other, Bool.false_or]
  unfold uses replaced
  rw [split, List.filter_append, List.filter_append, List.filter_cons, List.filter_cons,
    others fun mem => once.1 (.inl mem), others fun mem => once.1 (.inr mem), kept]
  simp [own, List.countP_cons, Nat.add_assoc]

end Tree

end BigLower
