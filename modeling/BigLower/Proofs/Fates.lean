import BigLower.Proofs.Lowering

/-! # What becomes of a node

Every node of the tree is either replaced, and then the store says what by, or it
is as it was at the start, but for the callee of a call that was redirected to the
library. This is stated of a store `s` that has grown from the store `base`.
-/

namespace BigLower

namespace Store

variable {changed : Nat → Prop} {s s' : Store}

theorem Evolves.kind (h : s.Evolves changed s') {x : Nat} {k : NodeKind}
    (found : s.kind (some x) = .ok k) (spared : ¬ changed x) : s'.kind (some x) = .ok k := by
  obtain ⟨n, found, same⟩ := kind_eq_ok_iff.mp found
  exact kind_eq_ok_iff.mpr ⟨n, h.kept found spared, same⟩

theorem kind_of_node? {x : Nat} {k : NodeKind} {span : Span}
    (found : s.node? (some x) = some ⟨k, span⟩) : s.kind (some x) = .ok k :=
  kind_eq_ok_iff.mpr ⟨⟨k, span⟩, found, rfl⟩

end Store

/-! ## Fates -/

section Fates

variable (L : LibraryNames) (base : Store) (w : Spelling) (s : Store)

structure AddedMember (property : Name) (m : Nat) : Prop where
  fresh : base.size ≤ m
  added : ∃ o, base.size ≤ o ∧ s.kind (some o) = .ok (.ident L.library) ∧
    s.kind (some m) = .ok (.member (some o) property)

/-- What the store says of a node that was replaced. -/
inductive Became (u : Tree Nat Name) : Prop where
  | literal {digits : Name} {m x : Nat} {range : Range} :
      u.kind = .bigInt digits → AddedMember L base s L.factory m →
      base.size ≤ x → s.kind (some x) = .ok (.str digits) → s.list range = .ok [some x] →
      s.kind (some u.tag) = .ok (.call (some m) range) → Became u
  | constructor {callee : Tree Nat Name} {args : List (Tree.Part Nat Name)} {m : Nat}
      {range : Range} :
      u.kind = .call (some callee) args → callee.isConstructor L.constructor = true →
      AddedMember L base s (L.memberFor callee.kind) m →
      base.kind (some u.tag) = .ok (.call (some callee.tag) range) →
      s.kind (some u.tag) = .ok (.call (some m) range) → Became u
  | operation {method : String} {operands : List (Tree.Part Nat Name)} {property : Name} {m : Nat}
      {range : Range} :
      u.kind.operation? = some (method, operands) → w.method method property →
      AddedMember L base s property m → s.list range = .ok (operands.map (Option.map Tree.tag)) →
      s.kind (some u.tag) = .ok (.call (some m) range) → Became u
  | compound {op : AssignOp} {target value : Tree.Part Nat Name} {method : String}
      {property : Name} {m call : Nat} {copy : Slot} {range : Range} :
      u.kind = .assign op target value → op.method? = some method →
      w.method method property → AddedMember L base s property m →
      base.size ≤ call → (∀ x ∈ copy, base.size ≤ x) →
      s.list range = .ok [copy, value.map Tree.tag] →
      s.kind (some call) = .ok (.call (some m) range) →
      s.kind (some u.tag) = .ok (.assign .plain (target.map Tree.tag) (some call)) →
      Became u
  | method {callee : Tree Nat Name} {args : List (Tree.Part Nat Name)} :
      u.kind = .call (some callee) args → callee.isMember = true →
      callee.isConstructor L.constructor = false →
      s.node? (some u.tag) = base.node? (some u.tag) →
      (∀ object property, callee.kind = .member (some object) property →
        object.kind = .ident L.math →
          s.kind (some object.tag) = .ok (.ident L.library) ∧
            ∃ property', w.math property property' ∧
              s.kind (some callee.tag) = .ok (.member (some object.tag) property')) →
      Became u

/-- What the store says of a node that was not replaced. -/
inductive Kept (tree : Tree Nat Name) (replaced : Nat → Bool) (u : Tree Nat Name) : Prop where
  | same : s.node? (some u.tag) = base.node? (some u.tag) → Kept tree replaced u
  | callee {v object : Tree Nat Name} {args : List (Tree.Part Nat Name)} {property property' : Name} :
      v ∈ tree.subtrees → v.kind = .call (some u) args → replaced v.tag = true →
      u.isConstructor L.constructor = false →
      u.kind = .member (some object) property → object.kind = .ident L.math →
      w.math property property' →
      s.kind (some u.tag) = .ok (.member (some object.tag) property') → Kept tree replaced u
  | object {v callee : Tree Nat Name} {args : List (Tree.Part Nat Name)} {property : Name} :
      v ∈ tree.subtrees → v.kind = .call (some callee) args → replaced v.tag = true →
      callee.isConstructor L.constructor = false →
      callee.kind = .member (some u) property → u.kind = .ident L.math →
      s.kind (some u.tag) = .ok (.ident L.library) → Kept tree replaced u

structure Fate (tree : Tree Nat Name) (replaced : Nat → Bool) (u : Tree Nat Name) : Prop where
  became : replaced u.tag = true → Became L base w s u
  kept : replaced u.tag = false → Kept L base w s tree replaced u

end Fates

variable {L : LibraryNames} {base : Store} {tree : Tree Nat Name} {w w' : Spelling} {s s' : Store}
  {R R' : Nat → Bool} {u : Tree Nat Name} {changed : Nat → Prop}

theorem Store.Holds.node? (holds : base.Holds u) : ∃ range span, base.node? (some u.tag) =
    some ⟨u.kind.map (Option.map Tree.tag) fun _ => range, span⟩ := by
  obtain ⟨range, span, found, -⟩ := Store.shape_tree_iff.mp holds.top
  exact ⟨range, span, found⟩

theorem AddedMember.evolve {property : Name} {m : Nat} (h : AddedMember L base s property m)
    (grown : s.Evolves changed s') (old : ∀ x, base.size ≤ x → ¬ changed x) :
    AddedMember L base s' property m := by
  obtain ⟨o, fresh, object, member⟩ := h.added
  exact ⟨h.fresh, o, fresh, grown.kind object (old o fresh), grown.kind member (old m h.fresh)⟩

/-- The nodes besides its own that the fate of a call is about are spared. -/
def Spares (L : LibraryNames) (changed : Nat → Prop) (u : Tree Nat Name) : Prop :=
  ¬ changed u.tag ∧ ∀ callee args object property, u.kind = .call (some callee) args →
    callee.kind = .member (some object) property → object.kind = .ident L.math →
      ¬ changed callee.tag ∧ ¬ changed object.tag

theorem Became.evolve (h : Became L base w s u) (holds : base.Holds u)
    (grown : s.Evolves changed s') (old : ∀ x, base.size ≤ x → ¬ changed x)
    (spared : Spares L changed u) (later : w.Le w') : Became L base w' s' u := by
  cases h with
  | literal kind member fresh text list own =>
    exact .literal kind (member.evolve grown old) fresh (grown.kind text (old _ fresh))
      (grown.list list) (grown.kind own spared.1)
  | constructor kind callee member start own =>
    exact .constructor kind callee (member.evolve grown old) start (grown.kind own spared.1)
  | operation op spells member list own =>
    exact .operation op (later.method spells) (member.evolve grown old) (grown.list list)
      (grown.kind own spared.1)
  | compound kind method spells member fresh copy list call own =>
    exact .compound kind method (later.method spells) (member.evolve grown old) fresh copy
      (grown.list list) (grown.kind call (old _ fresh)) (grown.kind own spared.1)
  | method kind member plain own redirected =>
    obtain ⟨range, span, found⟩ := holds.node?
    refine .method kind member plain ?_ fun object property inside math => ?_
    · rw [found] at own ⊢
      exact grown.kept own spared.1
    · obtain ⟨spared₁, spared₂⟩ := spared.2 _ _ object property kind inside math
      obtain ⟨library, property', renames, callee⟩ := redirected object property inside math
      exact ⟨grown.kind library spared₂, property', later.math renames, grown.kind callee spared₁⟩

theorem Kept.evolve (h : Kept L base w s tree R u) (holds : base.Holds u)
    (grown : s.Evolves changed s') (spared : ¬ changed u.tag)
    (more : ∀ x, R x = true → R' x = true) (later : w.Le w') : Kept L base w' s' tree R' u := by
  cases h with
  | same own =>
    obtain ⟨range, span, found⟩ := holds.node?
    refine .same ?_
    rw [found] at own ⊢
    exact grown.kept own spared
  | callee call kind replaced plain inside math renames own =>
    exact .callee call kind (more _ replaced) plain inside math (later.math renames)
      (grown.kind own spared)
  | object call kind replaced plain inside math own =>
    exact .object call kind (more _ replaced) plain inside math (grown.kind own spared)

/-- A step that spares a node leaves its fate. -/
theorem Fate.evolve (h : Fate L base w s tree R u) (holds : base.Holds u)
    (grown : s.Evolves changed s') (old : ∀ x, base.size ≤ x → ¬ changed x)
    (spared : Spares L changed u) (same : R' u.tag = R u.tag)
    (more : ∀ x, R x = true → R' x = true) (later : w.Le w') : Fate L base w' s' tree R' u where
  became replaced := (h.became (same ▸ replaced)).evolve holds grown old spared later
  kept kept := (h.kept (same ▸ kept)).evolve holds grown spared.1 more later

theorem Fate.of_kept (unmarked : R u.tag = false) (kept : Kept L base w s tree R u) :
    Fate L base w s tree R u :=
  ⟨fun marked => by simp [unmarked] at marked, fun _ => kept⟩

/-! ## Judging by fates -/

theorem Kept.seen (h : Kept L base w s tree R u) (holds : base.Holds u) :
    ∃ k span, s.node? (some u.tag) = some ⟨k, span⟩ ∧ u.SeenAs k := by
  cases h with
  | same own =>
    obtain ⟨range, span, found⟩ := holds.node?
    exact ⟨_, span, own.trans found, .same range⟩
  | callee _ _ _ _ inside _ _ own =>
    obtain ⟨n, found, same⟩ := Store.kind_eq_ok_iff.mp own
    exact ⟨n.kind, n.span, found, same ▸ .member _ inside⟩
  | object _ _ _ _ _ math own =>
    obtain ⟨n, found, same⟩ := Store.kind_eq_ok_iff.mp own
    exact ⟨n.kind, n.span, found, same ▸ .ident _ math⟩

theorem Became.isConstructor_eq (h : Became L base w s u) (holds : base.Holds u) (name : Name) :
    s.isConstructor name (some u.tag) = u.isConstructor name ∧
      s.isIdent (some u.tag) name = u.isIdent name := by
  have calls {k : NodeKind} (own : s.kind (some u.tag) = .ok k)
      (kind : (∃ m range, k = .call m range) ∨ ∃ t c, k = .assign .plain t c) :
      s.isConstructor name (some u.tag) = false ∧ s.isIdent (some u.tag) name = false := by
    obtain ⟨⟨k, span⟩, found, rfl⟩ := Store.kind_eq_ok_iff.mp own
    rcases kind with ⟨m, range, rfl⟩ | ⟨t, c, rfl⟩ <;>
      simp [Store.isConstructor, Store.isIdent, found]
  cases h with
  | literal kind _ _ _ _ own =>
    simpa [Tree.isConstructor, Tree.isIdent, kind] using calls own (.inl ⟨_, _, rfl⟩)
  | constructor kind _ _ _ own =>
    simpa [Tree.isConstructor, Tree.isIdent, kind] using calls own (.inl ⟨_, _, rfl⟩)
  | operation op _ _ _ own =>
    have plain : u.isConstructor name = false ∧ u.isIdent name = false := by
      unfold Tree.isConstructor Tree.isIdent
      cases kind : u.kind <;> simp_all [Kind.operation?]
    rw [plain.1, plain.2]
    exact calls own (.inl ⟨_, _, rfl⟩)
  | compound kind _ _ _ _ _ _ _ own =>
    simpa [Tree.isConstructor, Tree.isIdent, kind] using calls own (.inr ⟨_, _, rfl⟩)
  | method kind _ _ own _ =>
    obtain ⟨range, span, found⟩ := holds.node?
    rw [kind] at found
    simpa [Tree.isConstructor, Tree.isIdent, kind] using
      calls (Store.kind_of_node? (own.trans found)) (.inl ⟨_, _, rfl⟩)

section Calls

variable (holds : base.Holds tree) (distinct : tree.ids.Nodup)

include holds distinct

/-- The object of a member whose call was not replaced is still the identifier that it was. -/
theorem isIdent_of_fates (fates : ∀ v ∈ tree.subtrees, Fate L base w s tree R v) {c o : Tree Nat Name}
    {args : List (Tree.Part Nat Name)} {property : Name} (below : u ∈ tree.subtrees)
    (kept : R u.tag = false) (call : u.kind = .call (some c) args)
    (member : c.kind = .member (some o) property) (name : Name) :
    s.isIdent (some o.tag) name = o.isIdent name := by
  have child : c ∈ u.children := Tree.child_of_callee call
  have inside := Tree.subtrees_trans below (Tree.child_mem_subtrees child)
  have grandchild : o ∈ c.children := Tree.child_of_object member
  have deep := Tree.subtrees_trans inside (Tree.child_mem_subtrees grandchild)
  cases replaced : R o.tag with
  | true => exact (((fates o deep).became replaced).isConstructor_eq (holds.subtree deep) name).2
  | false =>
    cases (fates o deep).kept replaced with
    | same own =>
      obtain ⟨range, span, found⟩ := (holds.subtree deep).node?
      unfold Store.isIdent Tree.isIdent
      rw [own, found]
      cases o.kind <;> rfl
    | callee _ _ _ _ kind _ _ own =>
      obtain ⟨⟨k, span⟩, found, rfl⟩ := Store.kind_eq_ok_iff.mp own
      simp [Store.isIdent, Tree.isIdent, found, kind]
    | @object v callee args' _ outer call' marked plain member' _ own =>
      -- The call of this member is the one at hand, which was not replaced.
      have above : callee = c := Tree.parent_unique distinct
        (Tree.subtrees_trans outer (Tree.child_mem_subtrees (Tree.child_of_callee call'))) inside
        (Tree.child_of_object member') grandchild rfl
      subst above
      have whole : v = u := Tree.parent_unique distinct outer below (Tree.child_of_callee call')
        child rfl
      rw [whole, kept] at marked
      cases marked

/-- A call that was not replaced still goes to the constructor exactly if it did. -/
theorem isConstructor_of_fates (fates : ∀ v ∈ tree.subtrees, Fate L base w s tree R v)
    {callee : Tree.Part Nat Name} {args : List (Tree.Part Nat Name)} (below : u ∈ tree.subtrees)
    (kept : R u.tag = false) (call : u.kind = .call callee args) (name : Name) :
    s.isConstructor name (callee.map Tree.tag) = callee.any (Tree.isConstructor name) := by
  cases callee with
  | none => rfl
  | some c =>
    have child : c ∈ u.children := Tree.child_of_callee call
    have inside := Tree.subtrees_trans below (Tree.child_mem_subtrees child)
    show s.isConstructor name (some c.tag) = c.isConstructor name
    cases replaced : R c.tag with
    | true => exact (((fates c inside).became replaced).isConstructor_eq (holds.subtree inside) name).1
    | false =>
      cases (fates c inside).kept replaced with
      | same own =>
        obtain ⟨range, span, found⟩ := (holds.subtree inside).node?
        unfold Store.isConstructor Tree.isConstructor
        rw [own, found]
        cases member : c.kind with
        | member object property =>
          cases object with
          | none => rfl
          | some o => exact isIdent_of_fates holds distinct fates below kept call member name
        | _ => rfl
      | @callee v _ _ _ _ outer call' marked _ _ _ _ _ =>
        have whole : v = u := Tree.parent_unique distinct outer below
          (Tree.child_of_callee call') child rfl
        rw [whole, kept] at marked
        cases marked
      | @object v callee _ _ outer call' _ _ member _ _ =>
        have above : callee = u := Tree.parent_unique distinct
          (Tree.subtrees_trans outer (Tree.child_mem_subtrees (Tree.child_of_callee call'))) below
          (Tree.child_of_object member) child rfl
        rw [above, call] at member
        cases member

end Calls

theorem Became.isInert_eq (h : Became L base w s u) : u.kind.isInert = false := by
  cases h with
  | operation op => cases kind : u.kind <;> simp_all [Kind.operation?, Kind.isInert]
  | literal kind | constructor kind | compound kind | method kind => rw [kind]; rfl

theorem Fate.node?_eq (h : Fate L base w s tree R u) (inert : u.kind.isInert = true)
    (ident : ∀ name, u.kind ≠ .ident name)
    (member : ∀ object property, u.kind ≠ .member object property) :
    s.node? (some u.tag) = base.node? (some u.tag) := by
  cases replaced : R u.tag with
  | true => simp [(h.became replaced).isInert_eq] at inert
  | false =>
    cases h.kept replaced with
    | same own => exact own
    | callee _ _ _ _ kind => exact (member _ _ kind).elim
    | object _ _ _ _ _ kind => exact (ident _ kind).elim

end BigLower
