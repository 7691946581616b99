import BigLower.Proofs.Spellings
import BigLower.Proofs.Units
import Mathlib.Logic.Relation

/-! # No native big integer is left

In a lowered tree there is no literal and no call of the constructor: where one
stood there is a library call, and no rule makes a new one. What can be reached
in the store from the program is in the lowered tree.
-/

namespace BigLower

namespace Tree

def isNative {α : Type} (constructor : Name) (T : Tree α Name) : Bool :=
  match T.kind with
  | .bigInt _ => true
  | .call callee _ => callee.any (isConstructor constructor)
  | _ => false

def IsClean {α : Type} (constructor : Name) (T : Tree α Name) : Prop :=
  ∀ u ∈ T.subtrees, u.isNative constructor = false

section Clean

variable {constructor : Name} {T : Tree Nat Name}

theorem isClean_iff : T.IsClean constructor ↔
    T.isNative constructor = false ∧ ∀ c ∈ T.children, c.IsClean constructor := by
  unfold IsClean
  rw [subtrees_eq]
  simp only [List.mem_cons, List.mem_flatMap, forall_eq_or_imp]
  exact and_congr_right fun _ => ⟨fun all c child u below => all u ⟨c, child, below⟩,
    fun all u ⟨c, child, below⟩ => all c child u below⟩

theorem isIdent_form (T : Tree Nat Name) : T.form.isIdent constructor = T.isIdent constructor := by
  unfold isIdent
  rw [kind_form]
  cases T.kind <;> rfl

theorem isConstructor_form (T : Tree Nat Name) :
    T.form.isConstructor constructor = T.isConstructor constructor := by
  unfold isConstructor
  rw [kind_form]
  cases T.kind with
  | member object property =>
    cases object with
    | none => rfl
    | some o => exact isIdent_form o
  | _ => rfl

theorem isNative_form (T : Tree Nat Name) :
    T.form.isNative constructor = T.isNative constructor := by
  unfold isNative
  rw [kind_form]
  cases T.kind with
  | call callee args =>
    cases callee with
    | none => rfl
    | some c => exact isConstructor_form c
  | _ => rfl

theorem isClean_form : T.form.IsClean constructor ↔ T.IsClean constructor := by
  unfold IsClean
  rw [subtrees_form]
  simp only [List.mem_map, forall_exists_index, and_imp, forall_apply_eq_imp_iff₂, isNative_form]

theorem isClean_leaf (leaf : T.kind.parts = []) (plain : T.isNative constructor = false) :
    T.IsClean constructor := by
  refine isClean_iff.mpr ⟨plain, ?_⟩
  simp [children, Kind.slots, leaf]

theorem isClean_libraryMember (library property : Name) (o m : Nat) :
    (libraryMember library property o m).IsClean constructor := by
  refine isClean_iff.mpr ⟨rfl, fun c child => ?_⟩
  have here : c = .node o (.ident library) := by
    simpa [mem_children_iff, libraryMember, Tree.kind, Kind.slots, Kind.parts] using child
  rw [here]
  exact isClean_leaf rfl rfl

theorem isClean_libraryCall {library property : Name} {o m x : Nat} {args : List (Part Nat Name)}
    (different : library ≠ constructor) (rest : ∀ c, some c ∈ args → c.IsClean constructor) :
    (node x (.call (some (libraryMember library property o m)) args)).IsClean constructor := by
  refine isClean_iff.mpr ⟨beq_false_of_ne different, fun c child => ?_⟩
  rw [children_of_call rfl] at child
  rcases List.mem_cons.mp child with rfl | mem
  · exact isClean_libraryMember library property o m
  · exact rest c (by simpa using mem)

end Clean

/-! ## Lowered trees -/

namespace Lowers

variable {L : LibraryNames} {w : Spelling} {start : Nat} {R : Nat → Bool} {B : Nat → Option Nat}
  {T T' : Tree Nat Name}

theorem isIdent_of (h : Lowers L w start R B T T') {name : Name} (ident : T'.isIdent name = true) :
    T.isIdent name = true := by
  cases h with
  | keep f =>
    unfold isIdent at ident ⊢
    rw [kind_mapChildren] at ident
    cases kind : T.kind <;> simp_all [Kind.map]
  | _ => cases ident

/-- No rule makes a new constructor. -/
theorem isConstructor_of (h : Lowers L w start R B T T') {name : Name}
    (constructor : T'.isConstructor name = true) : T.isConstructor name = true := by
  cases h with
  | keep f _ _ _ below =>
    unfold isConstructor at constructor ⊢
    rw [kind_mapChildren] at constructor
    cases kind : T.kind with
    | ident text => simpa [kind, Kind.map] using constructor
    | member object property =>
      cases object with
      | none => simp [kind, Kind.map] at constructor
      | some o =>
        have inside : (f o).isIdent name = true := by simpa [kind, Kind.map] using constructor
        exact (below o (child_of_object kind)).isIdent_of inside
    | _ => simp [kind, Kind.map] at constructor
  | _ => cases constructor

/-- A lowered tree has no native source of big integers. -/
theorem isClean (h : Lowers L w start R B T T') (different : L.library ≠ L.constructor) :
    T'.IsClean L.constructor := by
  induction h with
  | literal kind own _ =>
    refine isClean_libraryCall different fun c mem => ?_
    cases List.mem_singleton.mp mem
    exact isClean_leaf rfl rfl
  | constructor f kind _ _ _ _ ih | operation f op _ _ _ _ ih | redirect f kind _ _ _ _ _ _ ih =>
    refine isClean_libraryCall different fun c mem => ?_
    obtain ⟨c, inside, rfl⟩ := some_mem_map.mp mem
    exact ih c inside
  | @compound T op target value copy method property o m call f kind found spells own _ _ alike _ ih =>
    have part {c : Tree Nat Name} (mem : some c ∈ [target, value].map (Option.map f)) :
        c.IsClean L.constructor := by
      obtain ⟨c, inside, rfl⟩ := some_mem_map.mp mem
      exact ih c inside
    refine isClean_iff.mpr ⟨rfl, fun c child => ?_⟩
    rcases List.mem_pair.mp (mem_children_iff.mp child) with first | second
    · exact part (first ▸ List.mem_cons_self)
    · cases second
      refine isClean_libraryCall different fun c mem => ?_
      rcases List.mem_pair.mp mem with rfl | last
      · obtain ⟨c', target', form⟩ := Option.map_eq_some_iff.mp (form_of_relabel alike).symm
        rw [← isClean_form, ← form, isClean_form]
        exact part (target' ▸ List.mem_cons_self)
      · exact part (last ▸ List.mem_cons_of_mem _ List.mem_cons_self)
  | @keep T f literal call own below ih =>
    refine isClean_iff.mpr ⟨?_, fun c child => ?_⟩
    · unfold isNative
      unfold isConstructorCall at call
      rw [kind_mapChildren]
      cases kind : T.kind with
      | bigInt digits => exact (literal digits kind).elim
      | call callee args =>
        cases callee with
        | none => rfl
        | some c =>
          rw [kind] at call
          refine Bool.eq_false_iff.mpr fun made => ?_
          have before := (below c (child_of_callee kind)).isConstructor_of made
          exact absurd before (Bool.eq_false_iff.mp call)
      | _ => rfl
    · rw [children_mapChildren] at child
      obtain ⟨c, inside, rfl⟩ := List.mem_map.mp child
      exact ih c inside

end Lowers

end Tree

/-! ## What can be reached -/

namespace Store

variable {s : Store} {T : Tree Nat Name}

def Reaches (s : Store) : Nat → Nat → Prop :=
  Relation.ReflTransGen fun x y => ∃ children, s.children (some x) = .ok children ∧ y ∈ children

theorem Holds.mem_of_reaches (holds : s.Holds T) {y : Nat} (reached : s.Reaches T.tag y) :
    ∃ u ∈ T.subtrees, u.tag = y := by
  induction reached with
  | refl => exact ⟨T, T.self_mem_subtrees, rfl⟩
  | tail _ last ih =>
    obtain ⟨u, below, rfl⟩ := ih
    obtain ⟨children, read, mem⟩ := last
    rw [(holds.subtree below).children] at read
    cases read
    obtain ⟨c, child, rfl⟩ := List.mem_map.mp mem
    exact ⟨c, Tree.subtrees_trans below (Tree.child_mem_subtrees child), rfl⟩

theorem Holds.isIdent_eq (holds : s.Holds T) (name : Name) :
    s.isIdent (some T.tag) name = T.isIdent name := by
  obtain ⟨range, span, found⟩ := holds.node?
  unfold isIdent Tree.isIdent
  rw [found]
  cases T.kind <;> rfl

theorem Holds.isConstructor_eq (holds : s.Holds T) (name : Name) :
    s.isConstructor name (some T.tag) = T.isConstructor name := by
  obtain ⟨range, span, found⟩ := holds.node?
  unfold isConstructor Tree.isConstructor
  rw [found]
  cases kind : T.kind with
  | member object property =>
    cases object with
    | none => rfl
    | some o => exact (holds.child (Tree.child_of_object kind)).isIdent_eq name
  | _ => rfl

/-- In a clean tree no literal and no constructor call can be reached. -/
theorem Holds.not_native (holds : s.Holds T) {constructor : Name} (clean : T.IsClean constructor)
    {y : Nat} {k : NodeKind} (reached : s.Reaches T.tag y) (kind : s.kind (some y) = .ok k) :
    (∀ digits, k ≠ .bigInt digits) ∧
      ∀ callee args, k = .call callee args → s.isConstructor constructor callee = false := by
  obtain ⟨u, below, rfl⟩ := holds.mem_of_reaches reached
  obtain ⟨range, span, found⟩ := (holds.subtree below).node?
  have plain := clean u below
  unfold Tree.isNative at plain
  rw [kind_of_node? found] at kind
  cases kind
  constructor
  · intro digits same
    cases inside : u.kind <;> simp_all [Kind.map]
  · intro callee args same
    cases inside : u.kind with
    | call part list =>
      rw [inside] at same plain
      cases same
      cases part with
      | none => rfl
      | some c =>
        have child := Tree.child_of_callee inside
        rw [← plain]
        exact ((holds.subtree below).child child).isConstructor_eq constructor
    | _ => simp [inside, Kind.map] at same

end Store

/--
When a well-formed unit has been lowered, and the library does not have the name
of the constructor, no literal and no call of the constructor or of a member of it
can be reached from the program.
-/
theorem lower_not_native {s : Store} {T : Tree Nat Name} (h : WellFormed s T) {config : Config}
    (different : config.library ≠ config.constructor) {names : Names}
    (consistent : names.Consistent)
    (room : ¬ Overflows (lower config s (some T.tag) names)) :
    ∃ (store : Store) (names' : Names) (outcome : Outcome) (L : LibraryNames),
      lower config s (some T.tag) names = .ok ⟨store, names', .ok outcome⟩ ∧
      config.Named names' L ∧
      ∀ x k, store.Reaches T.tag x → store.kind (some x) = .ok k →
        (∀ digits, k ≠ .bigInt digits) ∧
          ∀ callee args, k = .call callee args → store.isConstructor L.constructor callee = false := by
  obtain ⟨run⟩ := h.run config names
  obtain ⟨facts, ran, -⟩ := run.lower_eq room
  have named := run.named consistent
  have clean := run.done.lowers.isClean (named.library_ne_constructor different)
  refine ⟨_, _, _, run.setup.library, ran, named, fun x k reached kind => ?_⟩
  refine run.done.holds.not_native clean ?_ kind
  rw [run.done.lowers.tag_eq, run.tag]
  exact reached

/-- In the sample both literals and the constructor call are gone. -/
theorem lower_not_native_sample :
    WellFormed Sample.store Sample.tree ∧ ({} : Config).library ≠ ({} : Config).constructor ∧
    Sample.names.Consistent ∧
    ¬ Overflows (lower {} Sample.store (some Sample.tree.tag) Sample.names) ∧
    ∃ (store : Store) (names' : Names) (outcome : Outcome) (L : LibraryNames),
      lower {} Sample.store (some Sample.tree.tag) Sample.names = .ok ⟨store, names', .ok outcome⟩ ∧
      ({} : Config).Named names' L ∧
      ∀ x k, store.Reaches Sample.tree.tag x → store.kind (some x) = .ok k →
        (∀ digits, k ≠ .bigInt digits) ∧
          ∀ callee args, k = .call callee args → store.isConstructor L.constructor callee = false :=
  ⟨Sample.wellFormed, by decide, Sample.consistent, Sample.room,
    lower_not_native Sample.wellFormed (by decide) Sample.consistent Sample.room⟩

end BigLower
