import BigLower.Proofs.Native
import BigLower.Proofs.Planning

/-! # Quiet subtrees

A subtree without a source of big integers is not judged big as long as nothing in
it is tainted. Then no rule is applied in it, and a rule that is applied elsewhere
taints nothing in it but variables. So if its variables are untainted in the end, a
plan has nothing to do with it from the first visit to the last.
-/

namespace BigLower

namespace Tree

variable {constructor : Name} {T u : Tree Nat Name} {e : Evidence}

theorem IsClean.subtree (clean : T.IsClean constructor) (below : u ∈ T.subtrees) :
    u.IsClean constructor :=
  fun v inside => clean v (subtrees_trans below inside)

/-- Neither a native source of big integers is in the tree nor anything that is tainted. -/
structure IsQuiet (e : Evidence) (T : Tree Nat Name) : Prop where
  clean : T.IsClean e.constructor
  untainted : ∀ x ∈ T.ids, e.tainted x = false
  unbound : ∀ u ∈ T.subtrees, ∀ name, u.kind = .ident name → e.bound u.tag = false

namespace IsQuiet

theorem subtree (quiet : T.IsQuiet e) (below : u ∈ T.subtrees) : u.IsQuiet e where
  clean := quiet.clean.subtree below
  untainted x inside := quiet.untainted x (mem_ids_of_subtree below inside)
  unbound v inside := quiet.unbound v (subtrees_trans below inside)

theorem isSource_eq_false (quiet : T.IsQuiet e) : T.isSource e = false := by
  have plain := quiet.clean T T.self_mem_subtrees
  unfold isNative at plain
  unfold isSource
  split
  · simp_all
  · rename_i name kind
    exact quiet.unbound T T.self_mem_subtrees name kind
  · simp_all
  · rfl

theorem isBig_eq_false (quiet : T.IsQuiet e) : T.isBig e = false := by
  induction T using induction with
  | step T ih =>
    have operands : (T.kind.judged.any fun part => part.any (isBig e)) = false := by
      by_contra some
      obtain ⟨v, mem, big⟩ := any_isBig_iff.mp (by simpa using some)
      have child := child_of_judged mem
      rw [ih v child (quiet.subtree (child_mem_subtrees child))] at big
      cases big
    rw [isBig_eq, quiet.untainted T.tag T.tag_mem_ids, quiet.isSource_eq_false, operands]
    rfl

theorem any_isBig_eq_false (quiet : T.IsQuiet e) {parts : List (Part Nat Name)}
    (inside : ∀ u, some u ∈ parts → u ∈ T.children) :
    (parts.any fun part => part.any (isBig e)) = false := by
  by_contra some
  obtain ⟨u, mem, big⟩ := any_isBig_iff.mp (by simpa using some)
  rw [(quiet.subtree (child_mem_subtrees (inside u mem))).isBig_eq_false] at big
  cases big

theorem decisions (quiet : T.IsQuiet e) :
    T.isLoweredOnEntry e = false ∧ T.isPostponed e = false ∧ T.isBigMemberCall e = false := by
  have operands : T.hasBigOperand e = false := quiet.any_isBig_eq_false fun u => child_of_judged
  have own := quiet.clean T T.self_mem_subtrees
  unfold isNative at own
  refine ⟨?_, ?_, ?_⟩
  · unfold isLoweredOnEntry
    split
    · simp_all
    · simp_all
    · exact operands
    · exact operands
    · rfl
  · unfold isPostponed
    split
    · exact operands
    · rfl
  · unfold isBigMemberCall
    split
    · rename_i callee args call
      rw [quiet.any_isBig_eq_false fun u mem => child_of_arg call mem, Bool.and_false]
    · rfl

end IsQuiet

end Tree

structure Plan.Avoids (P : Plan) (S : Tree Nat Name) : Prop where
  replaced : ∀ x ∈ S.ids, x ∉ P.replaced
  declarators : ∀ x ∈ S.ids, x ∉ P.declarators
  pending : ∀ x ∈ S.ids, x ∉ P.pending

namespace Policy

variable (k : Policy) {P : Plan} {T S : Tree Nat Name} {v : Visit}

theorem isQuiet_of_avoids (clean : S.IsClean k.constructor) (avoids : P.Avoids S)
    (unbound : ∀ u ∈ S.subtrees, ∀ name, u.kind = .ident name → (k.evidence P).bound u.tag = false) :
    S.IsQuiet (k.evidence P) where
  clean := clean
  untainted x inside := by simp [evidence, avoids.replaced x inside, avoids.declarators x inside]
  unbound := unbound

theorem plan_of_isClean (clean : T.IsClean k.constructor) (enclosing : Slot) :
    k.plan (T.tour enclosing) {} = {} := by
  have quiet : T.IsQuiet (k.evidence {}) :=
    k.isQuiet_of_avoids clean ⟨by simp, by simp, by simp⟩ fun _ _ _ _ => by simp [evidence]
  exact k.plan_of_not fun v visited =>
    ⟨List.not_mem_nil, (quiet.subtree (Tree.mem_subtrees_of_tour visited)).decisions⟩

theorem bound_of_bound_plan {visits : List Visit} {x : Nat}
    (later : (k.evidence (k.plan visits P)).bound x = false) : (k.evidence P).bound x = false := by
  by_contra before
  rw [Bool.not_eq_false] at before
  obtain ⟨b, found, tainted⟩ := (Option.any_eq_true _ _).mp before
  have kept : b ∈ (k.plan visits P).bindings :=
    (@mem_collected k P visits Plan.bindings (fun v => (k.scopes.declaredBy v.enclosing).toList)
      (fun _ _ => rfl) (fun _ _ => rfl) b).mpr (.inr (of_decide_eq_true tainted))
  rw [Bool.eq_false_iff] at later
  exact later ((Option.any_eq_true _ _).mpr ⟨b, found, decide_eq_true kept⟩)

section Tours

variable (distinct : T.ids.Nodup) (below : S ∈ T.subtrees) (clean : S.IsClean k.constructor)

include distinct below in
/-- What is done at a visit outside of a subtree leaves the subtree alone. -/
theorem avoids_step_outside (visited : v ∈ T.tour none) (outside : v.tree ∉ S.subtrees)
    (avoids : P.Avoids S) : (k.step P v).Avoids S := by
  have mem := Tree.mem_subtrees_of_tour visited
  have apart : ∀ x ∈ S.ids, v.tree.tag ≠ x := by
    intro x inside same
    obtain ⟨u, deep, rfl⟩ := List.mem_map.mp inside
    rw [Tree.eq_of_tag_eq distinct mem (Tree.subtrees_trans below deep) same] at outside
    exact outside deep
  -- A declarator in the subtree has around it only what is in the subtree as well.
  have around : ∀ x ∈ S.ids, v.enclosing ≠ some x := by
    intro x inside same
    obtain ⟨u, deep, rfl⟩ := List.mem_map.mp inside
    rcases Tree.enclosing_of_tour visited with none | ⟨d, hd, -, within, here⟩
    · rw [none] at same
      cases same
    · rw [here, Option.some.injEq] at same
      have whole := Tree.eq_of_tag_eq distinct hd (Tree.subtrees_trans below deep) same
      rw [whole] at within
      exact outside (Tree.subtrees_trans deep within)
  have pending : ∀ x ∈ S.ids, x ∉ (k.step P v).pending := by
    intro x inside waiting
    rcases @mem_pending_plan k [v] P x waiting with before | ⟨w, here, same, -⟩
    · exact avoids.pending x inside before
    · rw [List.mem_singleton.mp here] at same
      exact apart x inside same
  cases marks : k.marks P v with
  | true =>
    rw [k.step_of_marks marks] at pending ⊢
    refine ⟨fun x inside marked => ?_, fun x inside marked => ?_, pending⟩
    · rcases List.mem_cons.mp marked with same | before
      · exact apart x inside same.symm
      · exact avoids.replaced x inside before
    · rcases List.mem_append.mp marked with same | before
      · exact around x inside (Option.mem_toList.mp same)
      · exact avoids.declarators x inside before
  | false =>
    obtain ⟨_, same⟩ := k.step_of_not_marks marks
    rw [same] at pending ⊢
    exact ⟨avoids.replaced, avoids.declarators, pending⟩

include distinct below clean

theorem avoids_step (visited : v ∈ T.tour none) (avoids : P.Avoids S)
    (unbound : ∀ u ∈ S.subtrees, ∀ name, u.kind = .ident name → (k.evidence P).bound u.tag = false) :
    (k.step P v).Avoids S := by
  by_cases inside : v.tree ∈ S.subtrees
  · have quiet := k.isQuiet_of_avoids clean avoids unbound
    have same : k.plan [v] P = P := by
      refine k.plan_of_not fun w here => ?_
      rw [List.mem_singleton.mp here]
      exact ⟨avoids.pending _ (List.mem_map_of_mem inside), (quiet.subtree inside).decisions⟩
    rw [show k.step P v = P from same]
    exact avoids
  · exact k.avoids_step_outside distinct below visited inside avoids

/-- If the variables of a clean subtree are untainted in the end, the plan avoids the subtree. -/
theorem avoids_plan {visits : List Visit} (visited : ∀ v ∈ visits, v ∈ T.tour none)
    (avoids : P.Avoids S) (unbound : ∀ u ∈ S.subtrees, ∀ name, u.kind = .ident name →
      (k.evidence (k.plan visits P)).bound u.tag = false) : (k.plan visits P).Avoids S := by
  induction visits generalizing P with
  | nil => exact avoids
  | cons v rest ih =>
    have first := k.avoids_step distinct below clean (visited v List.mem_cons_self) avoids
      fun u inside name ident => k.bound_of_bound_plan (unbound u inside name ident)
    exact ih (fun w mem => visited w (List.mem_cons_of_mem v mem)) first unbound

end Tours

end Policy

end BigLower
