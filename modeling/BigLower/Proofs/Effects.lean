import BigLower.Proofs.Origins
import BigLower.Proofs.Units

/-! # Calls and assignments in order

Calls and assignments are what the evaluation of a tree does. Apart from its new
nodes, a lowered tree does what the original tree does and in the same order, but for
one thing: what the target of a lowered compound assignment does is done twice.
-/

namespace BigLower

/-- Whether a node does something when it is evaluated, besides what its parts do. -/
def Kind.isEffect {ν σ ρ : Type} : Kind ν σ ρ → Bool
  | .call .. | .assign .. => true
  | _ => false

namespace Tree

/-! ## Orders of evaluation -/

def ownEffect (T : Tree Nat Name) : List Nat :=
  if T.kind.isEffect then [T.tag] else []

/-- The calls and assignments of a tree in the order of evaluation. -/
def effects : Tree Nat Name → List Nat :=
  fold fun T below => below.flatten ++ T.ownEffect

theorem effects_eq (T : Tree Nat Name) : T.effects = T.children.flatMap effects ++ T.ownEffect := by
  unfold effects
  rw [fold_eq, List.flatMap_def]

def target (T : Tree Nat Name) : Part Nat Name :=
  match T.kind with
  | .assign _ target _ => target
  | _ => none

/--
The calls and assignments of a tree in the order of evaluation, if the targets of
the assignments in a set are evaluated once more before the assigned values.
-/
def effectsTwice (lowered : Nat → Bool) : Tree Nat Name → List Nat :=
  fold fun T below =>
    (if lowered T.tag then (below.take T.target.toList.length).flatten else []) ++
      (below.flatten ++ T.ownEffect)

theorem children_eq_target_append (T : Tree Nat Name) :
    ∃ rest, T.children = T.target.toList ++ rest := by
  cases kind : T.kind with
  | assign op target value =>
    have same : T.target = target := by rw [Tree.target, kind]
    exact ⟨value.toList, by rw [same, children_of_assign kind]⟩
  | _ =>
    have none : T.target = none := by rw [Tree.target, kind]
    exact ⟨T.children, by rw [none]; rfl⟩

theorem effectsTwice_eq (lowered : Nat → Bool) (T : Tree Nat Name) :
    T.effectsTwice lowered =
      (if lowered T.tag then T.target.toList.flatMap (effectsTwice lowered) else []) ++
        (T.children.flatMap (effectsTwice lowered) ++ T.ownEffect) := by
  obtain ⟨rest, children⟩ := T.children_eq_target_append
  have first : (T.children.map (effectsTwice lowered)).take T.target.toList.length =
      T.target.toList.map (effectsTwice lowered) := by
    rw [children, List.map_append]
    exact List.take_left' (List.length_map _)
  unfold effectsTwice at first ⊢
  rw [fold_eq, first, List.flatMap_def, List.flatMap_def]

/-! ## The order after lowering -/

theorem target_eq_none {T : Tree Nat Name} (other : ∀ op target value, T.kind ≠ .assign op target value) :
    T.target = none := by
  unfold Tree.target
  split
  · exact (other _ _ _ ‹_›).elim
  · rfl

theorem effectsTwice_of_target {lowered : Nat → Bool} {T : Tree Nat Name}
    (none : lowered T.tag = true → T.target = none) :
    T.effectsTwice lowered = T.children.flatMap (effectsTwice lowered) ++ T.ownEffect := by
  rw [effectsTwice_eq]
  by_cases marked : lowered T.tag = true
  · rw [if_pos marked, none marked]
    rfl
  · rw [if_neg marked]
    rfl

theorem effectsTwice_of_isInert {lowered : Nat → Bool} {T : Tree Nat Name}
    (inert : ∀ u ∈ T.subtrees, u.kind.isInert = true) : T.effectsTwice lowered = [] := by
  induction T using induction with
  | step T ih =>
    have own := inert T T.self_mem_subtrees
    have none : T.target = none := by
      apply target_eq_none
      intro op target value assign
      rw [assign] at own
      cases own
    have silent : T.ownEffect = [] := by
      unfold ownEffect
      cases kind : T.kind <;> simp_all [Kind.isInert, Kind.isEffect]
    rw [effectsTwice_of_target fun _ => none, silent, List.append_nil, List.flatMap_eq_nil_iff]
    exact fun c child => ih c child fun u below => inert u (mem_subtrees_of_child child below)

theorem target_of_call {T : Tree Nat Name} {callee : Part Nat Name} {args : List (Part Nat Name)}
    (kind : T.kind = .call callee args) : T.target = none := by
  rw [Tree.target, kind]

structure Marks (start : Nat) (p : Nat → Bool) (T : Tree Nat Name) : Prop where
  old : ∀ x ∈ T.ids, x < start
  marks : ∀ u ∈ T.subtrees, p u.tag = u.kind.isEffect

namespace Marks

variable {start : Nat} {p : Nat → Bool} {T c : Tree Nat Name}

theorem child (h : Marks start p T) (child : c ∈ T.children) : Marks start p c where
  old x deep := h.old x (mem_ids_of_child child deep)
  marks u deep := h.marks u (mem_subtrees_of_child child deep)

theorem filter_tag (h : Marks start p T) : [T.tag].filter p = T.ownEffect := by
  rw [ownEffect, ← h.marks T T.self_mem_subtrees, List.filter_cons, List.filter_nil]

end Marks

section Traced

variable {start : Nat} {p R : Nat → Bool} {T : Tree Nat Name} {f : Tree Nat Name → Tree Nat Name}

/-- The call that takes the place of a literal does what the literal does, which is nothing. -/
theorem traced_literal {library property digits : Name} {o m x : Nat} (kind : T.kind = .bigInt digits)
    (marks : Marks start p T)
    (distinct : (node T.tag (.call (some (libraryMember library property o m))
      [some (node x (.str digits))])).ids.Nodup)
    (quiet : p o = false ∧ p m = false ∧ p x = false) :
    (node T.tag (.call (some (libraryMember library property o m))
      [some (node x (.str digits))])).Traced start p (T.effectsTwice R) := by
  have leaf : (node x (.str digits) : Tree Nat Name).Traced start p [] := by
    refine ⟨id, origins_id ?_, ?_⟩
    · intro u below
      cases List.mem_singleton.mp (show u ∈ [node x (.str digits)] from below)
      exact nofun
    · show [x].filter p = []
      simp [quiet.2.2]
  have traced := @traced_libraryCall start T.tag o m p library property
    [some (node x (.str digits))] id (fun _ => []) distinct ⟨quiet.1, quiet.2.1⟩ (by
      intro c mem
      cases List.mem_singleton.mp mem
      exact leaf)
  have children : T.children = [] := by simp [Tree.children, kind, Kind.slots, Kind.parts]
  have none : T.target = none := by rw [Tree.target, kind]
  rw [effectsTwice_of_target fun _ => none, children, ← marks.filter_tag]
  exact traced

/-- In a call the arguments are traced, if there is nothing to be found in the callee. -/
theorem traced_call {callee : Tree Nat Name} {args : List (Part Nat Name)} {library property : Name}
    {o m : Nat} (kind : T.kind = .call (some callee) args) (marks : Marks start p T)
    (distinct : (node T.tag (.call (some (libraryMember library property o m))
      (args.map (Option.map f)))).ids.Nodup)
    (quiet : p o = false ∧ p m = false) (inert : ∀ u ∈ callee.subtrees, u.kind.isInert = true)
    (each : ∀ c, some c ∈ args → (f c).Traced start p (c.effectsTwice R)) :
    (node T.tag (.call (some (libraryMember library property o m))
      (args.map (Option.map f)))).Traced start p (T.effectsTwice R) := by
  have traced := traced_libraryCall distinct quiet each
  rwa [marks.filter_tag, ← List.nil_append (List.flatMap _ _), ← effectsTwice_of_isInert inert,
    ← List.flatMap_cons, ← children_of_call kind,
    ← effectsTwice_of_target fun _ => target_of_call kind] at traced

/-- A node that stays is traced if its children are, and not taken for a lowered assignment. -/
theorem traced_mapChildren (marks : Marks start p T) (distinct : (T.mapChildren f).ids.Nodup)
    (call : R T.tag = true → ∃ callee args, T.kind = .call callee args)
    (tags : ∀ c ∈ T.children, (f c).tag = c.tag)
    (each : ∀ c ∈ T.children, (f c).Traced start p (c.effectsTwice R)) :
    (T.mapChildren f).Traced start p (T.effectsTwice R) := by
  have none : R T.tag = true → T.target = none := by
    intro lowered
    obtain ⟨callee, args, kind⟩ := call lowered
    exact target_of_call kind
  rw [effectsTwice_of_target none, ← marks.filter_tag]
  have children : (T.mapChildren f).children = [] ++ T.children.map f := children_mapChildren f T
  refine traced_node distinct children each (by simp) ?_
  intro target call kind
  rw [kind_mapChildren] at kind
  cases own : T.kind with
  | assign op target' value =>
    rw [own] at kind
    injection kind with _ _ stored
    obtain ⟨c, rfl, rfl⟩ := Option.map_eq_some_iff.mp stored
    have child : c ∈ T.children :=
      child_of_assign own (List.mem_cons_of_mem _ List.mem_cons_self)
    rw [tags c child]
    exact marks.old _ (mem_ids_of_child child c.tag_mem_ids)
  | _ =>
    rw [own] at kind
    cases kind

end Traced

theorem nodup_arg {c : Tree Nat Name} {x : Nat} {callee : Part Nat Name} {args : List (Part Nat Name)}
    {f : Tree Nat Name → Tree Nat Name}
    (distinct : (node x (.call callee (args.map (Option.map f)))).ids.Nodup) (mem : some c ∈ args) :
    (f c).ids.Nodup :=
  nodup_child distinct (child_of_arg rfl (some_mem_map.mpr ⟨c, mem, rfl⟩))

/-- What a lowered tree does is what the original does, where a lowered target does it twice. -/
theorem Lowers.traced {L : LibraryNames} {w : Spelling} {start : Nat} {R : Nat → Bool}
    {B : Nat → Option Nat} {T T' : Tree Nat Name} (h : Lowers L w start R B T T')
    (distinct : T'.ids.Nodup) {p : Nat → Bool} (marks : Marks start p T)
    (quiet : ∀ x, start ≤ x → p x = false) : T'.Traced start p (T.effectsTwice R) := by
  induction h with
  | literal kind _ fresh =>
    exact traced_literal kind marks distinct
      ⟨quiet _ (fresh _ (by simp)), quiet _ (fresh _ (by simp)), quiet _ (fresh _ (by simp))⟩
  | constructor f kind callee _ fresh _ ih =>
    apply traced_call kind marks distinct
    · exact ⟨quiet _ (fresh _ (by simp)), quiet _ (fresh _ (by simp))⟩
    · exact fun u below => isInert_of_isConstructor callee below
    · intro c mem
      exact ih c mem (nodup_arg distinct mem) (marks.child (child_of_arg kind mem))
  | @operation T _ operands _ _ _ f op _ _ fresh _ ih =>
    have none : T.target = none := target_eq_none (kind_of_operation op).2.2
    rw [effectsTwice_of_target fun _ => none, children_of_operation op, ← marks.filter_tag]
    apply traced_libraryCall distinct
    · exact ⟨quiet _ (fresh _ (by simp)), quiet _ (fresh _ (by simp))⟩
    · intro c mem
      exact ih c mem (nodup_arg distinct mem) (marks.child (child_of_operation op mem))
  | @compound T op target value copy _ property o m call f kind _ _ marked fresh _ copied new ih =>
    have first : T.target = target := by rw [Tree.target, kind]
    rw [effectsTwice_eq, if_pos marked, first, children_of_assign kind, ← marks.filter_tag]
    refine traced_loweredAssign distinct (marks.old _ T.tag_mem_ids) fresh new
      (form_of_relabel copied) ?_ quiet
    intro c mem
    have here : some c ∈ [target, value] := by simpa [eq_comm] using mem
    exact ih c here (nodup_subtree distinct (mem_subtrees_loweredAssign mem))
      (marks.child (child_of_assign kind here))
  | @redirect T callee object args property property' f kind _ member math _ _ _ ih =>
    have child : callee ∈ T.children := child_of_callee kind
    have deep : object ∈ callee.children := child_of_object member
    have method : callee.isConstructor L.math = true := by
      simp [isConstructor, isIdent, member, math]
    apply traced_call kind marks distinct
    · rw [((marks.child child).child deep).marks object object.self_mem_subtrees,
        (marks.child child).marks callee callee.self_mem_subtrees, math, member]
      exact ⟨rfl, rfl⟩
    · exact fun u below => isInert_of_isConstructor method below
    · intro c mem
      exact ih c mem (nodup_arg distinct mem) (marks.child (child_of_arg kind mem))
  | @keep T f _ _ marked lowers ih =>
    refine traced_mapChildren marks distinct marked (fun c child => (lowers c child).tag_eq) ?_
    intro c child
    refine ih c child (nodup_child distinct ?_) (marks.child child)
    rw [children_mapChildren]
    exact List.mem_map_of_mem child

/-! ## What is done once -/

theorem effectsTwice_eq_effects {lowered : Nat → Bool} {T : Tree Nat Name}
    (idle : ∀ u ∈ T.subtrees, lowered u.tag = true → ∀ D ∈ u.target, D.effects = []) :
    T.effectsTwice lowered = T.effects := by
  induction T using induction with
  | step T ih =>
    have below : ∀ c ∈ T.children, c.effectsTwice lowered = c.effects := fun c child =>
      ih c child fun u deep => idle u (mem_subtrees_of_child child deep)
    have twice : (if lowered T.tag then T.target.toList.flatMap (effectsTwice lowered) else []) = [] := by
      by_cases marked : lowered T.tag = true
      · rw [if_pos marked, List.flatMap_eq_nil_iff]
        intro D mem
        obtain ⟨rest, children⟩ := T.children_eq_target_append
        rw [below D (children ▸ List.mem_append_left rest mem)]
        exact idle T T.self_mem_subtrees marked D (Option.mem_toList.mp mem)
      · rw [if_neg marked]
    rw [effectsTwice_eq, twice, effects_eq, List.flatMap_congr below]
    rfl

theorem mem_effects_iff {T : Tree Nat Name} {x : Nat} :
    x ∈ T.effects ↔ ∃ u ∈ T.subtrees, u.tag = x ∧ u.kind.isEffect = true := by
  have own (T : Tree Nat Name) : x ∈ T.ownEffect ↔ T.tag = x ∧ T.kind.isEffect = true := by
    unfold ownEffect
    by_cases effect : T.kind.isEffect = true
    · rw [if_pos effect, List.mem_singleton, eq_comm]
      exact (and_iff_left effect).symm
    · rw [if_neg effect]
      exact ⟨nofun, fun h => (effect h.2).elim⟩
  induction T using induction with
  | step T ih =>
    rw [effects_eq, List.mem_append, List.mem_flatMap, own]
    constructor
    · rintro (⟨c, child, mem⟩ | here)
      · obtain ⟨u, below, rest⟩ := (ih c child).mp mem
        exact ⟨u, mem_subtrees_of_child child below, rest⟩
      · exact ⟨T, T.self_mem_subtrees, here⟩
    · rintro ⟨u, below, rest⟩
      rcases mem_subtrees_iff.mp below with rfl | ⟨c, child, inside⟩
      · exact .inr rest
      · exact .inl ⟨c, child, (ih c child).mpr ⟨u, inside, rest⟩⟩

theorem tag_mem_effects_iff {T u : Tree Nat Name} (distinct : T.ids.Nodup) (below : u ∈ T.subtrees) :
    u.tag ∈ T.effects ↔ u.kind.isEffect = true := by
  rw [mem_effects_iff]
  constructor
  · rintro ⟨v, inside, tag, effect⟩
    exact eq_of_tag_eq distinct inside below tag ▸ effect
  · exact fun effect => ⟨u, below, rfl, effect⟩

theorem effects_sublist (T : Tree Nat Name) : T.effects.Sublist T.postorder := by
  induction T using induction with
  | step T ih =>
    have own : T.ownEffect.Sublist [T.tag] := by
      unfold ownEffect
      split
      · exact List.Sublist.refl _
      · exact List.nil_sublist _
    rw [effects_eq, postorder_eq]
    refine List.Sublist.append ?_ own
    generalize T.children = list at ih
    induction list with
    | nil => exact List.Sublist.refl _
    | cons c rest ih' =>
      rw [List.flatMap_cons, List.flatMap_cons]
      exact (ih c List.mem_cons_self).append
        (ih' fun c mem => ih c (List.mem_cons_of_mem _ mem))

theorem mem_ids_of_effectsTwice {lowered : Nat → Bool} {T : Tree Nat Name} {x : Nat}
    (mem : x ∈ T.effectsTwice lowered) : x ∈ T.ids := by
  induction T using induction with
  | step T ih =>
    have below {c : Tree Nat Name} (child : c ∈ T.children) (mem : x ∈ c.effectsTwice lowered) :
        x ∈ T.ids :=
      mem_ids_of_child child (ih c child mem)
    rw [effectsTwice_eq, List.mem_append, List.mem_append] at mem
    rcases mem with again | once | own
    · split at again
      · obtain ⟨D, here, inside⟩ := List.mem_flatMap.mp again
        obtain ⟨rest, children⟩ := T.children_eq_target_append
        exact below (children ▸ List.mem_append_left rest here) inside
      · cases again
    · obtain ⟨c, child, inside⟩ := List.mem_flatMap.mp once
      exact below child inside
    · unfold ownEffect at own
      split at own
      · exact List.mem_singleton.mp own ▸ T.tag_mem_ids
      · cases own

theorem count_effectsTwice {lowered : Nat → Bool} {T : Tree Nat Name} {x : Nat}
    (outside : ∀ u ∈ T.subtrees, lowered u.tag = true → ∀ D ∈ u.target, x ∉ D.ids) :
    (T.effectsTwice lowered).count x = T.effects.count x := by
  induction T using induction with
  | step T ih =>
    have again :
        (if lowered T.tag then T.target.toList.flatMap (effectsTwice lowered) else []).count x = 0 := by
      apply List.count_eq_zero.mpr
      intro mem
      split at mem
      · next marked =>
        obtain ⟨D, here, inside⟩ := List.mem_flatMap.mp mem
        exact outside T T.self_mem_subtrees marked D (Option.mem_toList.mp here)
          (mem_ids_of_effectsTwice inside)
      · cases mem
    have below : (T.children.flatMap (effectsTwice lowered)).count x =
        (T.children.flatMap effects).count x := by
      rw [List.count_flatMap, List.count_flatMap]
      refine congrArg List.sum (List.map_congr_left fun c child => ?_)
      exact ih c child fun u deep => outside u (mem_subtrees_of_child child deep)
    rw [effectsTwice_eq, effects_eq, List.count_append, List.count_append, List.count_append, again,
      below, Nat.zero_add]

end Tree

/-! ## Lowered units -/

section Unit

variable {s : Store} {T : Tree Nat Name} {τ : Type} [Naming τ] {config : Config} {names : τ}

/-- The import does nothing. -/
theorem UnitRun.effectsTwice_eq (run : UnitRun config s T names) (h : WellFormed s T)
    (lowered : Nat → Bool) : run.setup.tree.effectsTwice lowered = T.effectsTwice lowered := by
  obtain ⟨body, program, -⟩ := h.program
  have none : T.target = none := by rw [Tree.target, program]
  have own : T.ownEffect = [] := by
    rw [Tree.ownEffect, program]
    rfl
  have silent : (Tree.node s.size (.importDefault run.setup.library.library
      run.setup.library.source)).effectsTwice lowered = [] := by
    apply Tree.effectsTwice_of_isInert
    intro u below
    cases List.mem_singleton.mp (show u ∈ [_] from below)
    rfl
  rw [run.tree, Tree.effectsTwice_of_target fun _ => none, own, Tree.effectsTwice_of_target,
    Tree.children_withImport program, List.flatMap_cons, silent]
  · rw [Tree.withImport_eq program]
    rfl
  · intro _
    rw [Tree.withImport_eq program]
    rfl

/-- The pass leaves a tree that can be traced to the nodes before it. -/
theorem UnitRun.traced (run : UnitRun config s T names) (h : WellFormed s T) :
    run.lowered.Traced (s.size + 1) (· ∈ T.effects)
      (T.effectsTwice fun x => run.final.facts.isReplaced (some x)) := by
  obtain ⟨body, program, -⟩ := h.program
  have inside {x : Nat} (mem : x ∈ T.effects) : x < s.size := by
    obtain ⟨u, below, rfl, -⟩ := Tree.mem_effects_iff.mp mem
    exact h.holds.lt_size (List.mem_map_of_mem below)
  have silent {x : Nat} (beyond : s.size ≤ x) : decide (x ∈ T.effects) = false := by
    apply decide_eq_false
    intro mem
    have := inside mem
    omega
  have marks : ∀ u ∈ run.setup.tree.subtrees, decide (u.tag ∈ T.effects) = u.kind.isEffect := by
    have old {u : Tree Nat Name} (below : u ∈ T.subtrees) :
        decide (u.tag ∈ T.effects) = u.kind.isEffect := by
      rw [Bool.eq_iff_iff, decide_eq_true_eq]
      exact Tree.tag_mem_effects_iff h.distinct below
    intro u below
    rcases (run.mem_subtrees h).mp below with rfl | rfl | ⟨c, child, deep⟩
    · have top := old T.self_mem_subtrees
      rw [run.tag, top, program, run.tree, Tree.withImport_eq program]
      rfl
    · exact silent (Nat.le_refl _)
    · exact old (Tree.mem_subtrees_of_child child deep)
  have traced := run.done.lowers.traced run.done.distinct
    ⟨fun x mem => run.setup.holds.lt_size mem, marks⟩
    fun x beyond => @silent x (by rw [run.size] at beyond; omega)
  rwa [run.size, run.effectsTwice_eq h] at traced

end Unit

namespace Sample

/-- The names and the store of `f().x += 1n;`. -/
def targetNames : Names :=
  ["f", "x", "1"].foldl (fun t text => (t.intern text).2) .fresh

@[inherit_doc targetNames]
def targetStore : Store where
  nodes := #[
    ⟨.ident 1, ⟨0, 1⟩⟩, ⟨.call (some 0) ⟨0, 0⟩, ⟨0, 3⟩⟩, ⟨.member (some 1) 2, ⟨0, 5⟩⟩,
    ⟨.bigInt 3, ⟨9, 11⟩⟩, ⟨.assign .add (some 2) (some 3), ⟨0, 11⟩⟩, ⟨.exprStmt (some 4), ⟨0, 12⟩⟩,
    ⟨.program ⟨0, 1⟩, ⟨0, 12⟩⟩]
  lists := #[some 5]

def targetAt (function call member : Nat) : Tree Nat Name :=
  .node member (.member (some (.node call (.call (some (.node function (.ident 1))) []))) 2)

def targetTree : Tree Nat Name :=
  .node 6 (.program [some (.node 5 (.exprStmt (some (.node 4 (.assign .add
    (some (targetAt 0 1 2)) (some (.node 3 (.bigInt 3))))))))])

def targetAssign : Tree Nat Name :=
  .loweredAssign 4 4 8 14 15 16 (some (targetAt 0 1 2)) (some (targetAt 11 12 13))
    (some (.node 3 (.call (some (Tree.libraryMember 4 6 8 9)) [some (.node 10 (.str 3))])))

def targetLowered : Tree Nat Name :=
  .node 6 (.program [some (.node 7 (.importDefault 4 5)),
    some (.node 5 (.exprStmt (some targetAssign)))])

theorem target_wellFormed : WellFormed targetStore targetTree := by decide +kernel

theorem target_room : ¬ Overflows (lower {} targetStore (some 6) targetNames) := by decide +kernel

end Sample

end BigLower
