import BigLower.Proofs.Printing
import BigLower.Proofs.Ranks
import BigLower.Proofs.Spellings

/-! # Stores that are alike but for their names

Two tables may have different names for one text. Two stores are alike when their
nodes are, as far as a run can come upon them, and related names stand at the same
places. Judging, reading and printing see no difference between such stores, and the
steps that change a store keep two of them alike.
-/

namespace BigLower

namespace Names

/-- Two names that stand for one text, each in a table of its own. -/
def Agree (A B : Names) (a b : Name) : Prop :=
  ∃ text, A.find? text = some a ∧ B.find? text = some b

variable {A B A' B' : Names} {a b : Name}

theorem Agree.grows (h : Agree A B a b) (left : Naming.Grows A A') (right : Naming.Grows B B') :
    Agree A' B' a b := by
  obtain ⟨text, found, found'⟩ := h
  exact ⟨text, left.find? found, right.find? found'⟩

theorem Agree.text_eq (h : Agree A B a b) (left : A.Consistent) (right : B.Consistent) :
    A.text a = B.text b := by
  obtain ⟨text, found, found'⟩ := h
  rw [left.text_of_find? found, right.text_of_find? found']

theorem biUnique_agree (left : A.Consistent) (right : B.Consistent) :
    Relator.BiUnique (Agree A B) := by
  constructor
  · rintro a b c ⟨text, found, found'⟩ ⟨text', other, other'⟩
    cases ((right text c).mp found').symm.trans ((right text' c).mp other')
    exact Option.some.inj (found.symm.trans other)
  · rintro a b c ⟨text, found, found'⟩ ⟨text', other, other'⟩
    cases ((left text a).mp found).symm.trans ((left text' a).mp other)
    exact Option.some.inj (found'.symm.trans other')

/-- A name agrees with itself in two tables that have grown from one that knows it. -/
theorem agree_self {t : Names} (consistent : t.Consistent) (known : a < t.size)
    (left : Naming.Grows t A) (right : Naming.Grows t B) : Agree A B a a := by
  have found : t.find? t.texts[a] = some a :=
    (consistent _ a).mpr (Array.getElem?_eq_getElem known)
  exact ⟨_, left.find? found, right.find? found⟩

end Names

/-! ## Kinds -/

namespace Kind

variable {ν μ ξ σ ρ : Type} {R R' : ν → μ → Prop} {k : Kind ν σ ρ} {k' : Kind μ σ ρ}

theorem names_rename (g : ν → μ) (k : Kind ν σ ρ) : (k.rename g).names = k.names.map g := by
  cases k <;> rfl

/-- The kinds are the same, with related names at the same places. -/
def Like (R : ν → μ → Prop) (k : Kind ν σ ρ) (k' : Kind μ σ ρ) : Prop :=
  ∃ both : Kind (ν × μ) σ ρ, both.rename Prod.fst = k ∧ both.rename Prod.snd = k' ∧
    ∀ pair ∈ both.names, R pair.1 pair.2

theorem Like.mono (h : k.Like R k') (wider : ∀ a b, R a b → R' a b) : k.Like R' k' := by
  obtain ⟨both, left, right, related⟩ := h
  exact ⟨both, left, right, fun pair mem => wider _ _ (related pair mem)⟩

theorem Like.parts_eq (h : k.Like R k') : k'.parts = k.parts := by
  obtain ⟨both, rfl, rfl, -⟩ := h
  rw [parts_rename, parts_rename]

theorem Like.rename_eq (h : k.Like R k') {f : ν → ξ} {g : μ → ξ} (same : ∀ a b, R a b → f a = g b) :
    k.rename f = k'.rename g := by
  obtain ⟨both, rfl, rfl, related⟩ := h
  rw [rename_rename, rename_rename]
  exact rename_congr fun pair mem => same _ _ (related pair mem)

theorem like_self {R : ν → ν → Prop} {k : Kind ν σ ρ} (each : ∀ name ∈ k.names, R name name) :
    k.Like R k := by
  refine ⟨k.rename fun name => (name, name), ?_, ?_, ?_⟩
  · rw [rename_rename]
    exact rename_id k
  · rw [rename_rename]
    exact rename_id k
  · intro pair mem
    rw [names_rename] at mem
    obtain ⟨name, inside, rfl⟩ := List.mem_map.mp mem
    exact each name inside

theorem like_nameless {R : ν → ν → Prop} {k : Kind ν σ ρ} (none : k.names = []) : k.Like R k :=
  like_self (by simp [none])

section Leaves

variable {a : ν} {b : μ} (related : R a b)

include related

theorem like_ident : (ident a : Kind ν σ ρ).Like R (ident b) :=
  ⟨.ident (a, b), rfl, rfl, by simpa [names] using related⟩

theorem like_str : (str a : Kind ν σ ρ).Like R (str b) :=
  ⟨.str (a, b), rfl, rfl, by simpa [names] using related⟩

theorem like_member (object : σ) : (member object a : Kind ν σ ρ).Like R (member object b) :=
  ⟨.member object (a, b), rfl, rfl, by simpa [names] using related⟩

end Leaves

end Kind

/-! ## Stores -/

/-- What a run may come upon: the nodes that are reached in the store it starts with, and new ones. -/
structure Region where
  start : Store
  reached : Nat → Prop

namespace Region

variable (Z : Region) {ν : Type}

def Node (x : Nat) : Prop := Z.reached x ∨ Z.start.size ≤ x

def List (range : Range) : Prop :=
  Z.start.lists.size ≤ range.start ∨
    ∃ slots, Z.start.list range = .ok slots ∧ ∀ y, some y ∈ slots → Z.Node y

def Slot (slot : BigLower.Slot) : Prop := ∀ y, slot = some y → Z.Node y

def Has (k : Kind ν BigLower.Slot Range) : Prop := ∀ part ∈ k.parts, part.elim Z.Slot Z.List

variable {Z} {k : Kind ν BigLower.Slot Range}

theorem Node.slot {x : Nat} (h : Z.Node x) : Z.Slot (some x) := by
  rintro y ⟨⟩
  exact h

theorem Has.slot (h : Z.Has k) {slot : BigLower.Slot} (part : .inl slot ∈ k.parts) : Z.Slot slot :=
  h _ part

theorem Has.list (h : Z.Has k) {range : Range} (part : .inr range ∈ k.parts) : Z.List range :=
  h _ part

theorem has_rename {μ : Type} {g : ν → μ} : Z.Has (k.rename g) ↔ Z.Has k := by
  unfold Has
  rw [Kind.parts_rename]

theorem has_leaf (leaf : k.parts = []) : Z.Has k := by
  intro part mem
  rw [leaf] at mem
  cases mem

variable {object callee target value : BigLower.Slot} {args : Range}

theorem has_member {property : ν} (slot : Z.Slot object) :
    Z.Has (.member object property : Kind ν BigLower.Slot Range) := by
  simpa [Has, Kind.parts] using slot

theorem has_call (slot : Z.Slot callee) (list : Z.List args) :
    Z.Has (.call callee args : Kind ν BigLower.Slot Range) := by
  simpa [Has, Kind.parts] using ⟨slot, list⟩

theorem has_assign {op : AssignOp} (left : Z.Slot target) (right : Z.Slot value) :
    Z.Has (.assign op target value : Kind ν BigLower.Slot Range) := by
  simpa [Has, Kind.parts] using ⟨left, right⟩

end Region

/-- Two stores are alike in a region: related names stand at the same places of the same nodes. -/
structure Store.Alike (R : Name → Name → Prop) (Z : Region) (s s' : Store) : Prop where
  size : s'.size = s.size
  lists : s'.lists = s.lists
  grown : Z.start.size ≤ s.size
  /-- New entries of lists are nodes of the region. -/
  entries : ∃ more : Array Slot, s.lists = Z.start.lists ++ more ∧ ∀ y, some y ∈ more → Z.Node y
  nodes : ∀ x, Z.Node x → ∀ n, s.node? (some x) = some n →
    ∃ k', s'.node? (some x) = some ⟨k', n.span⟩ ∧ n.kind.Like R k' ∧ Z.Has n.kind
  others : ∀ x, ¬ Z.Node x → s'.node? (some x) = s.node? (some x)

namespace Store

theorem mem_of_list_append {s : Store} {old more : Array Slot} (lists : s.lists = old ++ more)
    {range : Range} (behind : old.size ≤ range.start) {slots : List Slot}
    (read : s.list range = .ok slots) {slot : Slot} (mem : slot ∈ slots) : slot ∈ more := by
  unfold list at read
  split at read
  · cases read
    cases mem
  · split at read
    · cases read
      rw [lists] at mem
      obtain ⟨i, bound, here⟩ := List.mem_iff_getElem.mp mem
      simp only [Array.getElem_toList, Array.getElem_extract] at here
      rw [Array.getElem_append_right (by omega)] at here
      rw [← here]
      exact Array.getElem_mem _
    · cases read

theorem allocList_congr {s s' s₁ : Store} (same : s'.lists = s.lists) {slots : List Slot}
    {range : Range} (stored : s.allocList slots = .ok (range, s₁)) :
    s'.allocList slots = .ok (range, { s' with lists := s₁.lists }) := by
  obtain ⟨room, short, appended⟩ := allocList_eq_ok_iff.mp stored
  refine allocList_eq_ok_iff.mpr ⟨same ▸ room, short, ?_⟩
  unfold append at appended ⊢
  split at appended
  · rename_i empty
    cases appended
    rw [if_pos empty, ← same]
  · rename_i filled
    cases appended
    rw [if_neg filled, same]

theorem map_treeWithin {μ : Type} (g : Name → μ) {s : Store} {x : Nat} {k : NodeKind}
    (own : s.kind (some x) = .ok k) (gap : Except Fault (Tree.Part Nat Name)) (fuel : Nat) :
    Tree.rename g <$> s.treeWithin gap (fuel + 1) x =
      Tree.node x <$> (k.rename g).traverse
        (Option.map (Tree.rename g) <$> part gap (s.treeWithin gap fuel) ·)
        (Option.map (Tree.rename g) <$> part (pure none) (s.treeWithin gap fuel) ·)
        (fun range => List.map (Option.map (Tree.rename g)) <$> do
          (← s.list range).mapM (part gap (s.treeWithin gap fuel))) := by
  rw [← Kind.map_traverse, treeWithin, bind_of_eq own]
  simp only [map_bind, Functor.map_map, map_pure, Tree.rename, Tree.renameKind_eq]
  rfl

theorem map_mapM_congr {α β β' γ : Type} {φ : β → γ} {φ' : β' → γ} {act : α → Except Fault β}
    {act' : α → Except Fault β'} {list : List α}
    (same : ∀ a ∈ list, φ <$> act a = φ' <$> act' a) :
    List.map φ <$> list.mapM act = List.map φ' <$> list.mapM act' := by
  induction list with
  | nil => rfl
  | cons a rest ih =>
    have later := ih fun b mem => same b (List.mem_cons_of_mem a mem)
    have split {β : Type} (φ : β → γ) (act : α → Except Fault β) :
        List.map φ <$> (a :: rest).mapM act =
          (φ <$> act a) >>= fun c => (c :: ·) <$> (List.map φ <$> rest.mapM act) := by
      simp
    rw [split, split, later, same a List.mem_cons_self]

/-- A tree is read with the same names if that is so for all that is right below. -/
theorem map_treeWithin_step {μ : Type} {f g : Name → μ} {s s' : Store} {x : Nat} {k k' : NodeKind}
    (own : s.kind (some x) = .ok k) (own' : s'.kind (some x) = .ok k')
    (renamed : k.rename f = k'.rename g) (lists : s'.lists = s.lists) (e : Fault) (fuel : Nat)
    (below : ∀ y, (.inl (some y) ∈ k.parts ∨ ∃ range slots, .inr range ∈ k.parts ∧
        s.list range = .ok slots ∧ some y ∈ slots) →
      Tree.rename f <$> s.treeWithin (throw e) fuel y =
        Tree.rename g <$> s'.treeWithin (throw e) fuel y) :
    Tree.rename f <$> s.treeWithin (throw e) (fuel + 1) x =
      Tree.rename g <$> s'.treeWithin (throw e) (fuel + 1) x := by
  have parts : (k'.rename g).parts = k.parts := by rw [← renamed, Kind.parts_rename]
  have read {gap : Except Fault (Tree.Part Nat Name)}
      (none : Option.map (Tree.rename f) <$> gap = Option.map (Tree.rename g) <$> gap) {slot : Slot}
      (here : ∀ y, slot = some y → Tree.rename f <$> s.treeWithin (throw e) fuel y =
        Tree.rename g <$> s'.treeWithin (throw e) fuel y) :
      Option.map (Tree.rename f) <$> part gap (s.treeWithin (throw e) fuel) slot =
        Option.map (Tree.rename g) <$> part gap (s'.treeWithin (throw e) fuel) slot := by
    cases slot with
    | none => exact none
    | some y => simpa [part] using congrArg (Functor.map some) (here y rfl)
  rw [map_treeWithin f own, map_treeWithin g own', renamed]
  congr 1
  apply Kind.traverse_congr
  · intro slot mem
    rw [parts] at mem
    have here : ∀ y, slot = some y → _ := fun y same => below y (.inl (same ▸ mem))
    exact ⟨read rfl here, read rfl here⟩
  · intro range mem
    rw [parts] at mem
    rw [list_congr lists]
    cases listed : s.list range with
    | error e => rfl
    | ok slots =>
      refine map_mapM_congr fun slot inside => read rfl fun y same => below y (.inr ?_)
      exact ⟨range, slots, mem, listed, same ▸ inside⟩

theorem print_eq_of_trees {s s' : Store} (size : s'.size = s.size) {text text' : Name → String}
    {slot : Slot} (trees : ∀ x, slot = some x →
      Tree.rename text <$> s.treeWithin (throw .outOfBounds) (s.size + 1) x =
        Tree.rename text' <$> s'.treeWithin (throw .outOfBounds) (s.size + 1) x) :
    s'.print text' slot = s.print text slot := by
  cases slot with
  | none => rfl
  | some x =>
    have texts := congrArg (Functor.map (Tree.unitText id)) (trees x rfl)
    simp only [Functor.map_map, Tree.unitText_rename, Function.id_comp] at texts
    simp only [print, wholeTree, size, bind_pure_comp]
    exact texts.symm

namespace Alike

variable {R R' : Name → Name → Prop} {Z : Region} {s s' : Store}

theorem mono (h : s.Alike R Z s') (wider : ∀ a b, R a b → R' a b) : s.Alike R' Z s' where
  size := h.size
  lists := h.lists
  grown := h.grown
  entries := h.entries
  nodes x inside n found := by
    obtain ⟨k', found', like, has⟩ := h.nodes x inside n found
    exact ⟨k', found', like.mono wider, has⟩
  others := h.others

theorem node?_eq_none (h : s.Alike R Z s') {x : Nat} (absent : s.node? (some x) = none) :
    s'.node? (some x) = none := by
  have bound : s.size ≤ x := Array.getElem?_eq_none_iff.mp absent
  exact Array.getElem?_eq_none_iff.mpr (Nat.le_trans (Nat.le_of_eq h.size) bound)

theorem cases_node? (h : s.Alike R Z s') {slot : Slot} (inside : Z.Slot slot) :
    (s.node? slot = none ∧ s'.node? slot = none) ∨
      ∃ k k' span, s.node? slot = some ⟨k, span⟩ ∧ s'.node? slot = some ⟨k', span⟩ ∧ k.Like R k' ∧
        Z.Has k := by
  cases slot with
  | none => exact .inl ⟨rfl, rfl⟩
  | some x =>
    cases found : s.node? (some x) with
    | none => exact .inl ⟨rfl, h.node?_eq_none found⟩
    | some n =>
      obtain ⟨k', found', like, has⟩ := h.nodes x (inside x rfl) n found
      exact .inr ⟨n.kind, k', n.span, rfl, found', like, has⟩

theorem node_eq (h : s.Alike R Z s') {slot : Slot} (inside : Z.Slot slot) {n : Node}
    (read : s.node slot = .ok n) :
    ∃ n', s'.node slot = .ok n' ∧ n'.span = n.span ∧ n.kind.Like R n'.kind ∧ Z.Has n.kind := by
  have found := node_eq_ok_iff.mp read
  rcases h.cases_node? inside with ⟨absent, -⟩ | ⟨k, k', span, found', there, like, has⟩
  · cases absent.symm.trans found
  · cases found'.symm.trans found
    exact ⟨_, node_eq_ok_iff.mpr there, rfl, like, has⟩

theorem kind_eq (h : s.Alike R Z s') {slot : Slot} (inside : Z.Slot slot) {k : NodeKind}
    (read : s.kind slot = .ok k) : ∃ k', s'.kind slot = .ok k' ∧ k.Like R k' ∧ Z.Has k := by
  obtain ⟨n, found, rfl⟩ := kind_eq_ok_iff.mp read
  obtain ⟨n', read', -, like, has⟩ := h.node_eq inside (node_eq_ok_iff.mpr found)
  exact ⟨n'.kind, kind_eq_ok_iff.mpr ⟨n', node_eq_ok_iff.mp read', rfl⟩, like, has⟩

theorem list_eq (h : s.Alike R Z s') (range : Range) : s'.list range = s.list range :=
  list_congr h.lists range

theorem node_of_list (h : s.Alike R Z s') {range : Range} (inside : Z.List range)
    {slots : List Slot} (read : s.list range = .ok slots) {y : Nat} (mem : some y ∈ slots) :
    Z.Node y := by
  obtain ⟨more, lists, new⟩ := h.entries
  rcases inside with behind | ⟨old, read', inside⟩
  · exact new y (mem_of_list_append lists behind read mem)
  · cases (list_of_append lists read').symm.trans read
    exact inside y mem

theorem children (h : s.Alike R Z s') {x : Nat} (inside : Z.Node x) {below : List Nat}
    (read : s.children (some x) = .ok below) :
    s'.children (some x) = .ok below ∧ ∀ y ∈ below, Z.Node y := by
  obtain ⟨k, own, -⟩ := bind_eq_ok_iff.mp read
  obtain ⟨k', own', like, has⟩ := h.kind_eq inside.slot own
  refine ⟨?_, fun y mem => ?_⟩
  · rw [← read]
    exact children_congr own own' like.parts_eq h.lists
  · rcases (mem_children_iff own read).mp mem with part | ⟨range, list, part, listed, here⟩
    · exact has.slot part y rfl
    · exact h.node_of_list (has.list part) listed here

/-! ### Judging -/

section Judging

variable {c c' : Name} {slot : Slot}

theorem beq_eq (unique : Relator.BiUnique R) {a b : Name} (here : R a b) (there : R c c') :
    (b == c') = (a == c) := by
  rw [Bool.eq_iff_iff, beq_iff_eq, beq_iff_eq]
  constructor
  · rintro rfl
    exact unique.1 here there
  · rintro rfl
    exact unique.2 here there

variable (h : s.Alike R Z s') (unique : Relator.BiUnique R) (named : R c c')

include h unique named

theorem isIdent_eq (inside : Z.Slot slot) : s'.isIdent slot c' = s.isIdent slot c := by
  unfold isIdent
  rcases h.cases_node? inside with ⟨found, found'⟩ | ⟨k, k', span, found, found', like, -⟩
  · rw [found, found']
  · obtain ⟨both, rfl, rfl, related⟩ := like
    rw [found, found']
    cases both with
    | ident pair => exact beq_eq unique (related pair List.mem_cons_self) named
    | _ => rfl

theorem isConstructor_eq (inside : Z.Slot slot) :
    s'.isConstructor c' slot = s.isConstructor c slot := by
  unfold isConstructor
  rcases h.cases_node? inside with ⟨found, found'⟩ | ⟨k, k', span, found, found', like, has⟩
  · rw [found, found']
  · obtain ⟨both, rfl, rfl, related⟩ := like
    rw [found, found']
    cases both with
    | ident pair => exact beq_eq unique (related pair List.mem_cons_self) named
    | member object pair => exact h.isIdent_eq unique named (has.slot List.mem_cons_self)
    | _ => rfl

theorem cachedWithin_eq (t : Scopes) {fuel : Nat} (inside : Z.Slot slot) (f : Facts) :
    Judge.cachedWithin s' t c' fuel slot f = Judge.cachedWithin s t c fuel slot f := by
  induction fuel generalizing slot f with
  | zero => rfl
  | succ fuel ih =>
    unfold Judge.cachedWithin
    rcases h.cases_node? inside with ⟨found, found'⟩ | ⟨k, k', span, found, found', like, has⟩
    · rw [found, found']
    · obtain ⟨both, rfl, rfl, related⟩ := like
      rw [found, found']
      have below {slot : Slot} (part : .inl slot ∈ both.parts) (f : Facts) :
          Judge.cachedWithin s' t c' fuel slot f = Judge.cachedWithin s t c fuel slot f := by
        apply ih
        apply has.slot
        rwa [Kind.parts_rename]
      cases both with
      | call callee args =>
        have same := h.isConstructor_eq unique named (has.slot List.mem_cons_self)
        simp only [Kind.rename, same]
        rfl
      | binary op left right =>
        have first := @below left List.mem_cons_self
        have second := @below right (List.mem_cons_of_mem _ List.mem_cons_self)
        simp only [Kind.rename, first, second]
        rfl
      | unary op operand =>
        have only := @below operand List.mem_cons_self
        simp only [Kind.rename, only]
        rfl
      | assign op target value =>
        have stored := @below value (List.mem_cons_of_mem _ List.mem_cons_self)
        simp only [Kind.rename, stored]
        rfl
      | _ => rfl

theorem anySlot_eq (t : Scopes) {slots : List Slot} (inside : ∀ y, some y ∈ slots → Z.Node y)
    (f : Facts) : Judge.anySlot .cached s' t c' slots f = Judge.anySlot .cached s t c slots f := by
  induction slots generalizing f with
  | nil => rfl
  | cons slot rest ih =>
    have first : Judge.cached s' t c' slot f = Judge.cached s t c slot f := by
      unfold Judge.cached
      rw [h.size]
      refine h.cachedWithin_eq unique named t (fun y same => inside y ?_) f
      rw [← same]
      exact List.mem_cons_self
    have later := ih fun y mem => inside y (List.mem_cons_of_mem slot mem)
    simp only [Judge.anySlot, first, later]

end Judging

/-! ### Changes -/

section Changes

variable {k k' : NodeKind} (h : s.Alike R Z s')

include h

theorem node_size : Z.Node s.size := .inr h.grown

theorem push (like : k.Like R k') (has : Z.Has k) (span : Span) :
    (s.push k span).Alike R Z (s'.push k' span) where
  size := by rw [size_push, size_push, h.size]
  lists := h.lists
  grown := by
    have grown := h.grown
    rw [size_push]
    omega
  entries := h.entries
  nodes x inside n found := by
    rw [node?_push] at found
    rw [node?_push, h.size]
    by_cases last : x = s.size
    · rw [if_pos last] at found ⊢
      cases found
      exact ⟨k', rfl, like, has⟩
    · rw [if_neg last] at found ⊢
      exact h.nodes x inside n found
  others x outside := by
    have other : x ≠ s.size := by
      rintro rfl
      exact outside h.node_size
    rw [node?_push, node?_push, h.size, if_neg other, if_neg other, h.others x outside]

theorem alloc (like : k.Like R k') (has : Z.Has k) {span : Span} {x : Nat} {s₁ : Store}
    (added : s.alloc k span = .ok (x, s₁)) :
    Z.Node x ∧ ∃ s₁', s'.alloc k' span = .ok (x, s₁') ∧ s₁.Alike R Z s₁' := by
  obtain ⟨few, rfl, rfl⟩ := alloc_eq_ok_iff.mp added
  have added' : s'.alloc k' span = .ok (s.size, s'.push k' span) :=
    alloc_eq_ok_iff.mpr ⟨h.size.symm ▸ few, h.size.symm, rfl⟩
  exact ⟨h.node_size, _, added', h.push like has span⟩

theorem replace {slot : Slot} (inside : Z.Slot slot) (like : k.Like R k') (has : Z.Has k) {s₁ : Store}
    (replaced : s.replace slot k = .ok s₁) :
    ∃ s₁', s'.replace slot k' = .ok s₁' ∧ s₁.Alike R Z s₁' := by
  obtain ⟨x, rfl, bound, -⟩ := replace_eq_ok_iff.mp replaced
  obtain ⟨s₁', replaced', -⟩ := replace_of_lt (h.size.symm ▸ bound) k'
  refine ⟨s₁', replaced', ?_, ?_, ?_, ?_, ?_, ?_⟩
  · rw [size_replace replaced, size_replace replaced', h.size]
  · rw [lists_replace replaced, lists_replace replaced', h.lists]
  · rw [size_replace replaced]
    exact h.grown
  · rw [lists_replace replaced]
    exact h.entries
  · intro y here n found
    rw [node?_replace replaced] at found
    rw [node?_replace replaced']
    by_cases same : y = x
    · subst same
      rw [if_pos rfl] at found ⊢
      obtain ⟨n₀, found₀, rfl⟩ := Option.map_eq_some_iff.mp found
      obtain ⟨k₀', found₀', -⟩ := h.nodes y here n₀ found₀
      exact ⟨k', by rw [found₀']; rfl, like, has⟩
    · rw [if_neg same] at found ⊢
      exact h.nodes y here n found
  · intro y outside
    have other : y ≠ x := by
      rintro rfl
      exact outside (inside y rfl)
    rw [node?_replace replaced, node?_replace replaced', if_neg other, if_neg other, h.others y outside]

theorem allocList {slots : List Slot} (inside : ∀ y, some y ∈ slots → Z.Node y) {range : Range}
    {s₁ : Store} (stored : s.allocList slots = .ok (range, s₁)) :
    Z.List range ∧ ∃ s₁', s'.allocList slots = .ok (range, s₁') ∧ s₁.Alike R Z s₁' := by
  obtain ⟨more, lists, new⟩ := h.entries
  obtain ⟨nodes₁, lists₁⟩ := allocList_lists stored
  have node {slot : Slot} : s₁.node? slot = s.node? slot := by
    cases slot with
    | none => rfl
    | some x => simp [node?, nodes₁]
  have size : s₁.size = s.size := congrArg Array.size nodes₁
  refine ⟨?_, { s' with lists := s₁.lists }, allocList_congr h.lists stored, h.size.trans size.symm,
    rfl, size.symm ▸ h.grown, ⟨more ++ slots.toArray, ?_, fun y mem => ?_⟩, ?_, ?_⟩
  · rcases start_of_allocList stored with rfl | start
    · exact .inr ⟨[], rfl, by simp⟩
    · rw [lists, Array.size_append] at start
      exact .inl (by omega)
  · rw [lists₁, lists, Array.append_assoc]
  · rcases Array.mem_append.mp mem with old | mem
    · exact new y old
    · exact inside y (by simpa using mem)
  · intro x here n found
    rw [node] at found
    exact h.nodes x here n found
  · intro x outside
    rw [node]
    exact h.others x outside

end Changes

/-! ### Reading -/

/-- Stores that are alike have the same trees, but for the names. -/
theorem map_treeWithin_eq (h : s.Alike R Z s') {μ : Type} {f g : Name → μ}
    (same : ∀ a b, R a b → f a = g b) (e : Fault) (fuel : Nat) {x : Nat} (inside : Z.Node x) :
    Tree.rename f <$> s.treeWithin (throw e) fuel x =
      Tree.rename g <$> s'.treeWithin (throw e) fuel x := by
  induction fuel generalizing x with
  | zero => rfl
  | succ fuel ih =>
    rcases h.cases_node? inside.slot with ⟨absent, absent'⟩ | ⟨k, k', span, found, found', like, has⟩
    · have none : s.kind (some x) = .error .outOfBounds := by rw [Store.kind, absent]
      have none' : s'.kind (some x) = .error .outOfBounds := by rw [Store.kind, absent']
      rw [treeWithin, treeWithin, bind_of_error none, bind_of_error none']
      rfl
    · apply map_treeWithin_step (kind_of_node? found) (kind_of_node? found')
        (like.rename_eq same) h.lists
      rintro y (part | ⟨range, slots, part, read, mem⟩)
      · exact ih (has.slot part y rfl)
      · exact ih (h.node_of_list (has.list part) read mem)

/-- Stores that are alike have one text by tables that give related names one text. -/
theorem print_eq (h : s.Alike R Z s') {text text' : Name → String}
    (same : ∀ a b, R a b → text a = text' b) {slot : Slot} (inside : Z.Slot slot) :
    s'.print text' slot = s.print text slot :=
  print_eq_of_trees h.size fun x here => h.map_treeWithin_eq same .outOfBounds _ (inside x here)

end Alike

end Store

end BigLower
