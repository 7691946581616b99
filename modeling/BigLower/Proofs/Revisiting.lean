import BigLower.Proofs.Rooted
import BigLower.Proofs.Soundness

/-! # Going over a finished tree again

After a pass every node of the tree is settled, or it was added by a rule and is
replaced or simple. A constructor that was dropped as a callee is left as it was, and
it is simple too. So walks from any of these nodes change nothing.
-/

namespace BigLower

/-! ## Nodes at rest -/

section AtRest

variable {τ : Type} {E : Engine} {F : Fault → Prop} {q q' : Pass τ} {slot : Slot}

/-- A walk from a slot has nothing to do, as can be seen from the marks and at most two nodes. -/
inductive AtRest (q : Pass τ) (slot : Slot) : Prop where
  | absent : q.store.contains slot = false → AtRest q slot
  | marked : q.facts.isReplaced slot = true ∨ q.facts.isSettled slot = true → AtRest q slot
  | leaf {k : NodeKind} :
      q.store.kind slot = .ok k → (∃ name, k = .ident name ∨ k = .str name) → AtRest q slot
  | member {o : Nat} {property name : Name} :
      q.store.kind slot = .ok (.member (some o) property) →
      q.store.kind (some o) = .ok (.ident name) → AtRest q slot

theorem AtRest.mono (h : AtRest q slot) (quiet : Engine.OnlySettles q q') : AtRest q' slot := by
  cases h with
  | absent outside => exact .absent (quiet.store ▸ outside)
  | marked marked =>
    exact .marked (marked.imp (quiet.replaced slot).trans (quiet.settled slot))
  | leaf own leaf => exact .leaf (quiet.store ▸ own) leaf
  | member own object => exact .member (quiet.store ▸ own) (quiet.store ▸ object)

variable [Naming τ]

namespace Engine

theorem ensures_marked {fuel x : Nat} {enclosing : Slot} (there : x < q.store.size)
    (marked : q.facts.isReplaced (some x) = true ∨ q.facts.isSettled (some x) = true) :
    Ensures F (E.lowerWithin (fuel + 1) enclosing x) q fun _ q' => OnlySettles q q' := by
  have entered : E.enter enclosing x q = .ok (.done, q) := by
    unfold enter
    exact congrFun (if_pos (Bool.or_eq_true_iff.mpr marked)) q
  unfold lowerWithin
  refine .get ?_
  have inside : q.store.contains (some x) = true := decide_eq_true there
  rw [if_pos inside]
  exact .step entered (.of_ok (PassM.learn_eq _) (.settle q x))

theorem ensures_atRest (h : AtRest q slot) :
    Ensures F (E.lowerSlot slot) q fun _ q' => OnlySettles q q' := by
  cases slot with
  | none => exact .pure (.refl q)
  | some x =>
    refine .get ?_
    cases there : q.store.contains (some x) with
    | false =>
      unfold lowerWithin
      refine .get ?_
      rw [if_neg (by simp [there])]
      exact .pure (.refl q)
    | true =>
      cases h with
      | absent outside => simp [there] at outside
      | marked marked => exact ensures_marked (of_decide_eq_true there) marked
      | leaf own leaf => exact ensures_leaf own leaf
      | member own object => exact ensures_member own object

/-- One walk after the other changes nothing, if all of them have nothing to do. -/
theorem ensures_allAtRest {slots : List Slot} (h : ∀ slot ∈ slots, AtRest q slot) :
    Ensures F (slots.forM E.lowerSlot) q fun _ q' => OnlySettles q q' := by
  refine .forM (fun slot mem q₁ quiet => ?_) (.refl q)
  exact (ensures_atRest ((h slot mem).mono quiet)).mono fun _ q₂ => quiet.trans

end Engine

end AtRest

/-! ## The nodes of a finished tree -/

namespace Tree

variable {L : LibraryNames} {w : Spelling} {start : Nat} {R : Nat → Bool} {B : Nat → Option Nat}
  {T T' u : Tree Nat Name}

theorem isSimple_of_isConstructor {constructor : Name} {callee : Tree Nat Name}
    (own : callee.isConstructor constructor = true) (below : u ∈ callee.subtrees) :
    u.isSimple = true := by
  have leaf {v : Tree Nat Name} {name : Name} (ident : v.kind = .ident name)
      (inside : u ∈ v.subtrees) : u = v := by
    rcases mem_subtrees_iff.mp inside with same | ⟨c, child, -⟩
    · exact same
    · simp [children, ident, Kind.slots, Kind.parts] at child
  unfold isConstructor at own
  cases kind : callee.kind with
  | ident name =>
    rw [leaf kind below]
    simp [isSimple, kind]
  | member object property =>
    rw [kind] at own
    obtain ⟨o, rfl, ident⟩ := (Option.any_eq_true _ _).mp own
    obtain ⟨name, inner⟩ : ∃ name, o.kind = .ident name := by
      unfold isIdent at ident
      split at ident
      · exact ⟨_, ‹_›⟩
      · cases ident
    rcases mem_subtrees_iff.mp below with rfl | ⟨c, child, inside⟩
    · simp [isSimple, isName, kind, inner]
    · have same : c = o := by simpa [mem_children_iff, kind, Kind.slots, Kind.parts] using child
      rw [leaf inner (same ▸ inside)]
      simp [isSimple, inner]
  | _ => simp [kind] at own

namespace Lowers

/-- A node that is not in the lowered tree any more is simple: only constructors are dropped. -/
theorem mem_or_simple (h : Lowers L w start R B T T') (below : u ∈ T.subtrees) :
    u.tag ∈ T'.ids ∨ u.isSimple = true := by
  induction h with
  | @literal T digits o m x kind =>
    have leaf : T.children = [] := by simp [children, kind, Kind.slots, Kind.parts]
    rw [subtrees_eq, leaf] at below
    cases List.mem_singleton.mp below
    exact .inl (tag_mem_ids _)
  | @constructor T callee args o m f kind constructor own fresh parts ih =>
    rcases mem_subtrees_iff.mp below with rfl | ⟨c, child, inside⟩
    · exact .inl (tag_mem_ids _)
    · rw [children_of_call kind] at child
      rcases List.mem_cons.mp child with rfl | arg
      · exact .inr (isSimple_of_isConstructor constructor inside)
      · have mem : some c ∈ args := by simpa using arg
        exact (ih c mem inside).imp_left
          (mem_ids_of_child (child_of_arg rfl (some_mem_map.mpr ⟨c, mem, rfl⟩)))
  | @operation T method operands property o m f op spells own fresh parts ih =>
    rcases mem_subtrees_iff.mp below with rfl | ⟨c, child, inside⟩
    · exact .inl (tag_mem_ids _)
    · rw [children_of_operation op] at child
      have mem : some c ∈ operands := by simpa using child
      exact (ih c mem inside).imp_left
        (mem_ids_of_child (child_of_arg rfl (some_mem_map.mpr ⟨c, mem, rfl⟩)))
  | @compound T op target value copy method property o m call f kind found spells own new parts same
      fresh ih =>
    rcases mem_subtrees_iff.mp below with rfl | ⟨c, child, inside⟩
    · exact .inl (tag_mem_ids _)
    · have mem : some c ∈ [target, value] := by
        simpa [mem_children_iff, kind, Kind.slots, Kind.parts] using child
      refine (ih c mem inside).imp_left fun here => ?_
      have second {a b : Part Nat Name} : b ∈ [a, b] := List.mem_cons_of_mem _ List.mem_cons_self
      rcases List.mem_pair.mp mem with rfl | rfl
      · exact mem_ids_of_child (child_of_assign rfl List.mem_cons_self) here
      · exact mem_ids_of_child (child_of_assign rfl second)
          (mem_ids_of_child (child_of_arg rfl second) here)
  | @redirect T callee object args property property' f kind plain member math renames own parts ih =>
    rcases mem_subtrees_iff.mp below with rfl | ⟨c, child, inside⟩
    · exact .inl (tag_mem_ids _)
    · rw [children_of_call kind] at child
      rcases List.mem_cons.mp child with rfl | arg
      · have constructor : c.isConstructor L.math = true := by
          simp [isConstructor, isIdent, member, math]
        exact .inr (isSimple_of_isConstructor constructor inside)
      · have mem : some c ∈ args := by simpa using arg
        exact (ih c mem inside).imp_left
          (mem_ids_of_child (child_of_arg rfl (some_mem_map.mpr ⟨c, mem, rfl⟩)))
  | @keep T f literal call own parts ih =>
    rcases mem_subtrees_iff.mp below with rfl | ⟨c, child, inside⟩
    · exact .inl (tag_mem_ids _)
    · refine (ih c child inside).imp_left fun here => mem_ids_of_child ?_ here
      rw [children_mapChildren]
      exact List.mem_map_of_mem child

end Lowers

end Tree

section Fates

variable {L : LibraryNames} {base s : Store} {w : Spelling} {tree u : Tree Nat Name} {R : Nat → Bool}

theorem Fate.ident (h : Fate L base w s tree R u) (holds : base.Holds u) {name : Name}
    (ident : u.kind = .ident name) : ∃ new, s.kind (some u.tag) = .ok (.ident new) := by
  cases replaced : R u.tag with
  | true =>
    have same := ((h.became replaced).isConstructor_eq holds name).2
    simp only [Tree.isIdent, ident, beq_self_eq_true] at same
    unfold Store.isIdent at same
    split at same
    · exact ⟨_, Store.kind_of_node? ‹_›⟩
    · cases same
  | false =>
    obtain ⟨k, span, found, seen⟩ := (h.kept replaced).seen holds
    have own := Store.kind_of_node? found
    cases seen with
    | same range => exact ⟨name, by simpa [ident, Kind.map] using own⟩
    | ident new => exact ⟨new, own⟩
    | member new kind => simp [ident] at kind

theorem Fate.member (h : Fate L base w s tree R u) (holds : base.Holds u)
    {object : Tree.Part Nat Name} {property : Name} (member : u.kind = .member object property)
    (unmarked : R u.tag = false) :
    ∃ new, s.kind (some u.tag) = .ok (.member (object.map Tree.tag) new) := by
  obtain ⟨k, span, found, seen⟩ := (h.kept unmarked).seen holds
  have own := Store.kind_of_node? found
  cases seen with
  | same range => exact ⟨property, by simpa [member, Kind.map] using own⟩
  | ident new kind => simp [member] at kind
  | @member object' _ new kind =>
    rw [member] at kind
    cases kind
    exact ⟨new, own⟩

end Fates

theorem Store.Holds.atRest {τ : Type} {q : Pass τ} {v : Tree Nat Name} (holds : q.store.Holds v)
    (simple : v.isSimple = true) : AtRest q (some v.tag) := by
  obtain ⟨range, own, -⟩ := holds.kind_list
  unfold Tree.isSimple at simple
  cases kind : v.kind with
  | ident name | str name =>
    rw [kind] at own
    exact .leaf own ⟨name, by simp [Kind.map]⟩
  | member object property =>
    rw [kind] at own simple
    obtain ⟨o, rfl, named⟩ := (Option.any_eq_true _ _).mp simple
    obtain ⟨range', inner, -⟩ := (holds.child (Tree.child_of_object kind)).kind_list
    unfold Tree.isName at named
    cases ident : o.kind with
    | ident name =>
      rw [ident] at inner
      exact .member own inner
    | _ => simp [ident] at named
  | _ => simp [kind] at simple

namespace Setup

variable {τ : Type} {C : Setup} {names : τ} {q : Pass τ} {P : Plan} {f : Facts}
  {u v : Tree Nat Name}

theorem Finished.atRest (h : C.Finished q v) (remembers : C.Remembers f q.facts)
    (holds : q.store.Holds v) : AtRest { q with facts := f } (some v.tag) := by
  rcases h with settled | ⟨-, replaced | simple⟩
  · exact .marked (.inr ((remembers.settled _).trans settled))
  · exact .marked (.inl ((remembers.replaced _).trans replaced))
  · exact Store.Holds.atRest (q := { q with facts := f }) holds simple

/-- A simple node of the tree at the start is at rest all the time. -/
theorem Progress.atRest [Naming τ] (h : C.Progress names q P) (remembers : C.Remembers f q.facts)
    (below : u ∈ C.tree.subtrees) (simple : u.isSimple = true) :
    AtRest { q with facts := f } (some u.tag) := by
  cases replaced : q.facts.isReplaced (some u.tag) with
  | true => exact .marked (.inl ((remembers.replaced _).trans replaced))
  | false =>
    have fate := h.fates u below
    have holds := C.holds.subtree below
    unfold Tree.isSimple at simple
    cases kind : u.kind with
    | ident name =>
      obtain ⟨new, own⟩ := fate.ident holds kind
      exact .leaf own ⟨new, .inl rfl⟩
    | str name =>
      obtain ⟨k, span, found, seen⟩ := (fate.kept replaced).seen holds
      cases seen with
      | same range =>
        rw [kind] at found
        exact .leaf (Store.kind_of_node? found) ⟨name, .inr rfl⟩
      | ident new other | member new other => simp [kind] at other
    | member object property =>
      rw [kind] at simple
      obtain ⟨o, rfl, named⟩ := (Option.any_eq_true _ _).mp simple
      obtain ⟨name, ident⟩ : ∃ name, o.kind = .ident name := by
        unfold Tree.isName at named
        split at named
        · exact ⟨_, ‹_›⟩
        · cases named
      have child := Tree.child_of_object kind
      obtain ⟨new, own⟩ := fate.member holds kind replaced
      obtain ⟨new', inner⟩ := (h.fates o (Tree.subtrees_trans below
        (Tree.child_mem_subtrees child))).ident (holds.child child) ident
      exact .member own inner
    | _ => simp [kind] at simple

end Setup

/-! ## The pass and what comes after it -/

namespace Store

structure IsFullTree (s : Store) (root : Nat) : Prop where
  tree : s.IsTree root
  /-- No statement, declarator or parameter is absent. -/
  entries : ∀ x, s.Reaches root x → ∀ k, s.kind (some x) = .ok k → ∀ range ∈ k.fullLists,
    ∀ slots, s.list range = .ok slots → none ∉ slots
  /-- Every call has a callee. -/
  callees : ∀ x, s.Reaches root x → ∀ args, s.kind (some x) ≠ .ok (.call none args)
  /-- No list is longer than a range can count. -/
  fit : ∀ x, s.Reaches root x → ∀ k, s.kind (some x) = .ok k → ∀ range, .inr range ∈ k.parts →
    range.len ≤ maxListLength

theorem IsUnit.isFullTree {s : Store} {root : Nat} (h : s.IsUnit root) : s.IsFullTree root :=
  ⟨h.tree, h.entries, h.callees, h.fit⟩

end Store

/--
After the pass over a tree without gaps, if it does not fill the store, walks from nodes
that were in the tree before the pass, from nodes that are in it now, and from slots without
a node, in any order and any number, succeed and change nothing but that more nodes are
settled.
-/
theorem Engine.lowerSlot_again {s : Store} {root : Nat} (h : s.IsFullTree root) (config : Config)
    {τ : Type} [Naming τ] (names : τ) :
    ∃ scopes : Scopes, s.resolve (some root) = .ok scopes ∧
      (Overflows ((config.engine .cached names).1.lowerSlot (some root)
        { store := s, names := (config.engine .cached names).2, scopes }) ∨
      ∃ p : Pass τ, (config.engine .cached names).1.lowerSlot (some root)
          { store := s, names := (config.engine .cached names).2, scopes } = .ok ((), p) ∧
        ∀ slots : List Slot,
          (∀ x, some x ∈ slots → s.Reaches root x ∨ p.store.Reaches root x ∨ p.store.size ≤ x) →
          ∃ p', slots.forM (config.engine .cached names).1.lowerSlot p = .ok ((), p') ∧
            OnlySettles p p') := by
  obtain ⟨T, rfl, holds, distinct⟩ := h.tree.holds
  have entries := holds.entriesPresent_iff.mpr h.entries
  obtain ⟨scopes, resolved, unreferenced⟩ := Store.exists_resolve holds entries
  let C : Setup := {
    library := (config.intern names).1
    memberCalls := config.memberCalls
    scopes := scopes
    store := s
    tree := T
    holds, distinct
    fit := holds.listsFit_iff.mpr h.fit
    callees := holds.calleesPresent_iff.mpr h.callees
    unreferenced := fun x outside => unreferenced x fun inside =>
      Nat.not_lt.mpr outside (holds.lt_size inside) }
  obtain ⟨q, T', runs, progress, done, finished⟩ := C.runs_lowerSlot (config.intern names).2
  refine ⟨scopes, resolved, ?_⟩
  rcases runs.ends with ⟨arrives, -⟩ | ⟨⟨fault, overflow, stuck⟩, -⟩
  case inr => exact .inl ⟨fault, stuck .cached _ C.faithful_cached {} C.remembers_empty, overflow⟩
  obtain ⟨f, run, remembers⟩ := arrives .cached _ C.faithful_cached {} C.remembers_empty
  refine .inr ⟨{ q with facts := f }, run, fun slots known => ?_⟩
  have rests : ∀ slot ∈ slots, AtRest { q with facts := f } slot := by
    intro slot mem
    cases slot with
    | none => exact .absent rfl
    | some x =>
      have after {x : Nat} (inside : x ∈ T'.ids) : AtRest { q with facts := f } (some x) := by
        obtain ⟨v, below, rfl⟩ := List.mem_map.mp inside
        exact (finished v below).atRest remembers (done.holds.subtree below)
      rcases known x mem with before | now | outside
      · obtain ⟨u, below, rfl⟩ := holds.mem_of_reaches before
        rcases done.lowers.mem_or_simple below with inside | simple
        · exact after inside
        · exact progress.atRest remembers below simple
      · have reached : q.store.Reaches T'.tag x := done.lowers.tag_eq ▸ now
        obtain ⟨v, below, rfl⟩ := done.holds.mem_of_reaches reached
        exact after (List.mem_map_of_mem below)
      · exact .absent (decide_eq_false (Nat.not_lt.mpr outside))
  have again := ensures_allAtRest (E := C.engine .cached) (F := fun _ => False) rests
  rcases again with ⟨fault, -, never⟩ | ⟨⟨⟩, p', again, quiet⟩
  · exact never.elim
  · exact ⟨p', again, quiet⟩

theorem Sample.pass_room {scopes : Scopes} (resolved : store.resolve (some 25) = .ok scopes) :
    ¬ Overflows ((({} : Config).engine .cached names).1.lowerSlot (some 25)
      { store := store, names := (({} : Config).engine .cached names).2, scopes }) := by
  have room : ¬ Overflows (store.resolve (some 25) >>= fun scopes =>
      (({} : Config).engine .cached names).1.lowerSlot (some 25)
        { store := store, names := (({} : Config).engine .cached names).2, scopes }) := by
    decide +kernel
  rwa [bind_of_eq resolved] at room

/-- In the sample a constructor is dropped, a target is copied and a member is redirected. -/
theorem Engine.lowerSlot_again_sample :
    Sample.store.IsFullTree 25 ∧
    ∃ (scopes : Scopes) (p : Pass Names), Sample.store.resolve (some 25) = .ok scopes ∧
      (({} : Config).engine .cached Sample.names).1.lowerSlot (some 25)
        { store := Sample.store, names := (({} : Config).engine .cached Sample.names).2, scopes } =
          .ok ((), p) ∧
      ∀ slots : List Slot,
        (∀ x, some x ∈ slots →
          Sample.store.Reaches 25 x ∨ p.store.Reaches 25 x ∨ p.store.size ≤ x) →
        ∃ p', slots.forM (({} : Config).engine .cached Sample.names).1.lowerSlot p = .ok ((), p') ∧
          OnlySettles p p' := by
  have full : Sample.store.IsFullTree 25 := Store.IsUnit.isFullTree
    (Store.isUnit_iff.mpr ⟨Sample.tree, by decide +kernel, Sample.wellFormed⟩)
  obtain ⟨scopes, resolved, ends⟩ := lowerSlot_again full {} Sample.names
  obtain ⟨p, again⟩ := ends.resolve_left (Sample.pass_room resolved)
  exact ⟨full, scopes, p, resolved, again⟩

end BigLower
