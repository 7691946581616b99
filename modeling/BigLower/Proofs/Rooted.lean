import BigLower.Proofs.Native
import Mathlib.Data.Fintype.Card
import Mathlib.Data.Fintype.EquivFin

/-! # Lowering keeps the tree a tree

What can be reached in a store from a root is a tree if all of it can be read, no
node is below itself, and none is at two places. Such a store holds a nested tree
without repetitions, and the other way round. So the conditions on a unit can be
told from the store alone, and lowering keeps them: a node that is moved leaves
its old place, and a copied target shares nothing with the target.
-/

namespace BigLower

namespace Store

/-! ## Trees in the graph of a store -/

def IsChild (s : Store) (x y : Nat) : Prop :=
  ∃ children, s.children (some x) = .ok children ∧ y ∈ children

/-- What can be reached from a root is a tree. -/
structure IsTree (s : Store) (root : Nat) : Prop where
  /-- Every node is in the store with all its lists, and has no child twice. -/
  readable : ∀ x, s.Reaches root x → ∃ children, s.children (some x) = .ok children ∧ children.Nodup
  /-- No node is a child of two others. -/
  parent : ∀ x y c, s.Reaches root x → s.Reaches root y → s.IsChild x c → s.IsChild y c → x = y
  /-- No node is below itself. -/
  acyclic : ∀ x, s.Reaches root x → ¬ Relation.TransGen s.IsChild x x

variable {s : Store} {T : Tree Nat Name} {root : Nat}

theorem list_of_slotsOf {parts : List (Slot ⊕ Range)} {slots : List Slot}
    (read : s.slotsOf parts = .ok slots) {range : Range} (mem : .inr range ∈ parts) :
    ∃ list, s.list range = .ok list := by
  induction parts generalizing slots with
  | nil => cases mem
  | cons part rest ih =>
    cases part with
    | inl slot =>
      obtain ⟨others, read', -⟩ := bind_eq_ok_iff.mp read
      exact ih read' (by simpa using mem)
    | inr first =>
      obtain ⟨front, own, rest'⟩ := bind_eq_ok_iff.mp read
      obtain ⟨others, read', -⟩ := bind_eq_ok_iff.mp rest'
      rcases List.mem_cons.mp mem with same | mem
      · cases same
        exact ⟨front, own⟩
      · exact ih read' mem

theorem slotsOf_of_lists {parts : List (Slot ⊕ Range)}
    (lists : ∀ range, .inr range ∈ parts → ∃ list, s.list range = .ok list) :
    ∃ slots, s.slotsOf parts = .ok slots := by
  induction parts with
  | nil => exact ⟨[], rfl⟩
  | cons part rest ih =>
    obtain ⟨slots, read⟩ := ih fun range mem => lists range (List.mem_cons_of_mem part mem)
    cases part with
    | inl slot => exact ⟨_, bind_of_eq read⟩
    | inr range =>
      obtain ⟨list, own⟩ := lists range List.mem_cons_self
      exact ⟨_, (bind_of_eq own).trans (bind_of_eq read)⟩

theorem mem_slotsOf_iff {parts : List (Slot ⊕ Range)} {slots : List Slot}
    (read : s.slotsOf parts = .ok slots) {slot : Slot} : slot ∈ slots ↔
      .inl slot ∈ parts ∨ ∃ range list, .inr range ∈ parts ∧ s.list range = .ok list ∧ slot ∈ list := by
  induction parts generalizing slots with
  | nil =>
    cases read
    simp
  | cons part rest ih =>
    cases part with
    | inl first =>
      obtain ⟨others, read', same⟩ := bind_eq_ok_iff.mp read
      cases same
      simp [ih read', or_assoc]
    | inr first =>
      obtain ⟨front, own, rest'⟩ := bind_eq_ok_iff.mp read
      obtain ⟨others, read', same⟩ := bind_eq_ok_iff.mp rest'
      cases same
      simp [ih read', or_and_right, exists_or, own, or_left_comm]

/-- What a kind has in a slot or in a list is a child, and nothing else is. -/
theorem mem_children_iff {x : Nat} {below : List Nat} {k : NodeKind}
    (own : s.kind (some x) = .ok k) (read : s.children (some x) = .ok below) {y : Nat} : y ∈ below ↔
      .inl (some y) ∈ k.parts ∨ ∃ range list, .inr range ∈ k.parts ∧ s.list range = .ok list ∧
        some y ∈ list := by
  unfold Store.children at read
  rw [bind_of_eq own] at read
  obtain ⟨slots, all, same⟩ := bind_eq_ok_iff.mp read
  cases same
  rw [← mem_slotsOf_iff all]
  simp

/-- The children of a node can be read exactly if its lists can. -/
theorem exists_children_iff {x : Nat} {k : NodeKind} (own : s.kind (some x) = .ok k) :
    (∃ below, s.children (some x) = .ok below) ↔
      ∀ range, .inr range ∈ k.parts → ∃ list, s.list range = .ok list := by
  unfold Store.children
  rw [bind_of_eq own]
  constructor
  · rintro ⟨below, read⟩ range mem
    obtain ⟨slots, all, -⟩ := bind_eq_ok_iff.mp read
    exact list_of_slotsOf all mem
  · intro lists
    obtain ⟨slots, all⟩ := slotsOf_of_lists lists
    exact ⟨_, bind_of_eq all⟩

theorem shape_of_children {x : Nat} {children : List Nat}
    (read : s.children (some x) = .ok children) : ∃ shape, s.shape x = .ok shape := by
  obtain ⟨k, own, -⟩ := bind_eq_ok_iff.mp read
  have lists := (exists_children_iff own).mp ⟨children, read⟩
  unfold Store.shape
  rw [own]
  cases k with
  | program range | varDecl _ range | block range | array range | function _ range _
  | call _ range | arrow range _ =>
    obtain ⟨list, listed⟩ := lists range (by simp [Kind.parts])
    exact ⟨_, bind_of_eq (k := fun list => pure _) listed⟩
  | _ => exact ⟨_, rfl⟩

/-- Two nodes above the same one are above each other. -/
theorem IsTree.above (h : s.IsTree root) {a b y : Nat} (ha : s.Reaches root a)
    (hb : s.Reaches root b) (left : s.Reaches a y) (right : s.Reaches b y) :
    s.Reaches a b ∨ s.Reaches b a := by
  induction left with
  | refl => exact .inr right
  | @tail y z left last ih =>
    rcases right.cases_tail with rfl | ⟨y', right', last'⟩
    · exact .inl (left.tail last)
    · have same := h.parent y y' z (ha.trans left) (hb.trans right') last last'
      exact ih (same ▸ right')

theorem reaches_of_mem (holds : s.Holds T) {u : Tree Nat Name} (below : u ∈ T.subtrees) :
    s.Reaches T.tag u.tag := by
  induction T using Tree.induction with
  | step T ih =>
    rcases Tree.mem_subtrees_iff.mp below with rfl | ⟨c, child, inside⟩
    · exact .refl
    · exact .head ⟨_, holds.children, List.mem_map_of_mem child⟩ (ih c child (holds.child child) inside)

/-- A held tree has no repetitions, if what can be reached is a tree. -/
theorem IsTree.nodup (h : s.IsTree root) (holds : s.Holds T) (reached : s.Reaches root T.tag) :
    T.ids.Nodup := by
  induction T using Tree.induction with
  | step T ih =>
    obtain ⟨children, read, once⟩ := h.readable T.tag reached
    rw [holds.children] at read
    cases read
    have step {c : Tree Nat Name} (child : c ∈ T.children) : s.IsChild T.tag c.tag :=
      ⟨_, holds.children, List.mem_map_of_mem child⟩
    have inside {c : Tree Nat Name} (child : c ∈ T.children) {x : Nat} (mem : x ∈ c.ids) :
        s.Reaches c.tag x := by
      obtain ⟨u, below, rfl⟩ := List.mem_map.mp mem
      exact reaches_of_mem (holds.child child) below
    -- A child that is above another child of the same node is that child.
    have apart {c d : Tree Nat Name} (hc : c ∈ T.children) (hd : d ∈ T.children)
        (above : s.Reaches c.tag d.tag) : c.tag = d.tag := by
      rcases above.cases_tail with same | ⟨p, path, last⟩
      · exact same.symm
      · have same := h.parent p T.tag d.tag ((reached.tail (step hc)).trans path) reached last (step hd)
        exact (h.acyclic T.tag reached (.head' (step hc) (same ▸ path))).elim
    rw [Tree.ids_eq, List.nodup_cons]
    constructor
    · intro mem
      obtain ⟨c, child, mem⟩ := List.mem_flatMap.mp mem
      exact h.acyclic T.tag reached (.head' (step child) (inside child mem))
    · refine List.nodup_flatMap.mpr ⟨fun c child =>
        ih c child (holds.child child) (reached.tail (step child)), ?_⟩
      refine (List.pairwise_map.mp once).imp_of_mem fun hc hd different x left right => ?_
      rcases h.above (reached.tail (step hc)) (reached.tail (step hd)) (inside hc left)
        (inside hd right) with above | above
      · exact different (apart hc hd above)
      · exact different (apart hd hc above).symm

/-- A node whose children are the tops of held trees is the top of a held tree. -/
theorem holds_of_children {x : Nat} {children : List Nat} (read : s.children (some x) = .ok children)
    (below : ∀ y ∈ children, ∃ T : Tree Nat Name, T.tag = y ∧ s.Holds T) :
    ∃ T : Tree Nat Name, T.tag = x ∧ s.Holds T := by
  obtain ⟨shape, own⟩ := shape_of_children read
  have slots := children_of_shape own
  rw [read] at slots
  cases slots
  have choice : ∀ y, ∃ T : Tree Nat Name, some y ∈ shape.slots → T.tag = y ∧ s.Holds T := by
    intro y
    by_cases mem : some y ∈ shape.slots
    · obtain ⟨T, held⟩ := below y (by simpa using mem)
      exact ⟨T, fun _ => held⟩
    · exact ⟨.node y .null, fun here => (mem here).elim⟩
  choose g held using choice
  have back : ∀ slot ∈ shape.slots, (Option.map Tree.tag ∘ Option.map g) slot = slot := by
    intro slot mem
    cases slot with
    | none => rfl
    | some y => exact congrArg some (held y mem).1
  refine ⟨.node x (shape.map (Option.map g) (List.map (Option.map g))), rfl, ?_⟩
  refine holds_iff.mpr ⟨?_, fun c child => ?_⟩
  · have lists : List.map (Option.map Tree.tag) ∘ List.map (Option.map g) =
        List.map (Option.map Tree.tag ∘ Option.map g) := funext fun list => List.map_map
    rw [Tree.shape, Tree.kind, Kind.map_map, lists, Kind.map_congr back]
    have same : shape.map (fun slot => slot) (List.map fun slot => slot) = shape := by
      cases shape <;> simp [Kind.map]
    rw [same]
    exact own
  · rw [Tree.mem_children_iff, Tree.kind, Kind.slots_map, Tree.some_mem_map] at child
    obtain ⟨y, mem, rfl⟩ := child
    exact (held y mem).2

/-- A store holds what can be reached, if all of it can be read and none of it is below itself. -/
theorem holds_of_acyclic
    (readable : ∀ x, s.Reaches root x → ∃ children, s.children (some x) = .ok children)
    (acyclic : ∀ x, s.Reaches root x → ¬ Relation.TransGen s.IsChild x x) :
    ∃ T : Tree Nat Name, T.tag = root ∧ s.Holds T := by
  -- No path goes on for ever: what is reached is finite, and none of it is below itself.
  let Reached := { x // s.Reaches root x }
  let Below (a b : Reached) : Prop := Relation.TransGen s.IsChild b.1 a.1
  have bound (a : Reached) : a.1 < s.size := by
    obtain ⟨children, read⟩ := readable a.1 a.2
    obtain ⟨shape, own⟩ := shape_of_children read
    obtain ⟨_, _, found, -⟩ := shape_eq_ok_iff.mp own
    exact node?_lt found
  have finite : Finite Reached :=
    Finite.of_injective (fun a : Reached => (⟨a.1, bound a⟩ : Fin s.size))
      fun a b same => Subtype.ext (congrArg Fin.val same)
  have trans : IsTrans Reached Below := ⟨fun _ _ _ first second => second.trans first⟩
  have irrefl : Std.Irrefl Below := ⟨fun a cycle => acyclic a.1 a.2 cycle⟩
  have founded : WellFounded Below := Finite.wellFounded_of_trans_of_irrefl Below
  have all (a : Reached) : ∃ T : Tree Nat Name, T.tag = a.1 ∧ s.Holds T := by
    induction a using founded.induction with
    | h a ih =>
      obtain ⟨children, read⟩ := readable a.1 a.2
      refine holds_of_children read fun y mem => ?_
      have step : s.IsChild a.1 y := ⟨children, read, mem⟩
      exact ih ⟨y, a.2.tail step⟩ (.single step)
  exact all ⟨root, .refl⟩

/-- If what can be reached is a tree, then the store holds it. -/
theorem IsTree.holds (h : s.IsTree root) :
    ∃ T : Tree Nat Name, T.tag = root ∧ s.Holds T ∧ T.ids.Nodup := by
  have readable : ∀ x, s.Reaches root x → ∃ children, s.children (some x) = .ok children := by
    intro x reached
    obtain ⟨children, read, -⟩ := h.readable x reached
    exact ⟨children, read⟩
  obtain ⟨T, rfl, holds⟩ := holds_of_acyclic readable h.acyclic
  exact ⟨T, rfl, holds, h.nodup holds .refl⟩

theorem Holds.child_of_isChild (holds : s.Holds T) {y : Nat} (step : s.IsChild T.tag y) :
    ∃ c ∈ T.children, c.tag = y := by
  obtain ⟨children, read, mem⟩ := step
  rw [holds.children] at read
  cases read
  exact List.mem_map.mp mem

/-- Nothing that can be reached from the top of a held tree is below itself. -/
theorem Holds.acyclic (holds : s.Holds T) {x : Nat} (reached : s.Reaches T.tag x) :
    ¬ Relation.TransGen s.IsChild x x := by
  intro cycle
  obtain ⟨u, below, rfl⟩ := holds.mem_of_reaches reached
  obtain ⟨y, step, path⟩ := Relation.TransGen.head'_iff.mp cycle
  obtain ⟨c, first, rfl⟩ := (holds.subtree below).child_of_isChild step
  obtain ⟨v, inside, same⟩ := ((holds.subtree below).child first).mem_of_reaches path
  refine (holds.subtree below).tag_not_mem_child first ?_
  exact same ▸ List.mem_map_of_mem inside

/-- What can be reached from the top of a held tree is a tree, if the held one has no repetitions. -/
theorem Holds.isTree (holds : s.Holds T) (distinct : T.ids.Nodup) : s.IsTree T.tag where
  readable x reached := by
    obtain ⟨u, below, rfl⟩ := holds.mem_of_reaches reached
    have once := Tree.nodup_children (Tree.nodup_subtree distinct below)
    refine ⟨_, (holds.subtree below).children, List.pairwise_map.mpr ?_⟩
    refine (List.nodup_flatMap.mp once).2.imp fun apart same => ?_
    exact apart (Tree.tag_mem_ids _) (same ▸ Tree.tag_mem_ids _)
  parent x y c reached reached' left right := by
    obtain ⟨u, below, rfl⟩ := holds.mem_of_reaches reached
    obtain ⟨v, below', rfl⟩ := holds.mem_of_reaches reached'
    obtain ⟨a, first, rfl⟩ := (holds.subtree below).child_of_isChild left
    obtain ⟨b, second, same⟩ := (holds.subtree below').child_of_isChild right
    exact congrArg Tree.tag (Tree.parent_unique distinct below below' first second same.symm)
  acyclic x reached := holds.acyclic reached

/-! ## Units in a store -/

theorem Holds.forall_reached (holds : s.Holds T) {P : Nat → Prop} :
    (∀ x, s.Reaches T.tag x → P x) ↔ ∀ u ∈ T.subtrees, P u.tag := by
  constructor
  · intro all u below
    exact all u.tag (reaches_of_mem holds below)
  · intro all x reached
    obtain ⟨u, below, rfl⟩ := holds.mem_of_reaches reached
    exact all u below

end Store

theorem Kind.fullLists_map {ν σ ρ σ' ρ' : Type} (f : σ → σ') (g : ρ → ρ') (k : Kind ν σ ρ) :
    (k.map f g).fullLists = k.fullLists.map g := by
  cases k <;> rfl

namespace Store

variable {s : Store} {T : Tree Nat Name} {root : Nat}

/-- A root with all that can be reached from it is a unit that a pass can go over. -/
structure IsUnit (s : Store) (root : Nat) : Prop where
  tree : s.IsTree root
  /-- The root is a program, and there is room for one more statement. -/
  program : ∃ range, s.kind (some root) = .ok (.program range) ∧ range.len < maxListLength
  /-- No statement, declarator or parameter is absent. -/
  entries : ∀ x, s.Reaches root x → ∀ k, s.kind (some x) = .ok k → ∀ range ∈ k.fullLists,
    ∀ slots, s.list range = .ok slots → none ∉ slots
  /-- Every call has a callee. -/
  callees : ∀ x, s.Reaches root x → ∀ args, s.kind (some x) ≠ .ok (.call none args)
  /-- No list is longer than a range can count. -/
  fit : ∀ x, s.Reaches root x → ∀ k, s.kind (some x) = .ok k → ∀ range, .inr range ∈ k.parts →
    range.len ≤ maxListLength

theorem Holds.entriesPresent_iff (holds : s.Holds T) : T.EntriesPresent ↔
    ∀ x, s.Reaches T.tag x → ∀ k, s.kind (some x) = .ok k → ∀ range ∈ k.fullLists,
      ∀ slots, s.list range = .ok slots → none ∉ slots := by
  rw [holds.forall_reached]
  refine forall₂_congr fun u below => ?_
  obtain ⟨range, kind, lists⟩ := (holds.subtree below).kind_list
  constructor
  · intro full k same range' mem slots read absent
    cases kind.symm.trans same
    rw [Kind.fullLists_map] at mem
    obtain ⟨list, inside, rfl⟩ := List.mem_map.mp mem
    cases (lists list (Kind.mem_parts_of_fullLists inside)).symm.trans read
    obtain ⟨part, mem, gap⟩ := List.mem_map.mp absent
    cases part with
    | none => exact full list inside mem
    | some c => cases gap
  · intro full list inside absent
    refine full _ kind range ?_ _ (lists list (Kind.mem_parts_of_fullLists inside)) ?_
    · rw [Kind.fullLists_map]
      exact List.mem_map.mpr ⟨list, inside, rfl⟩
    · exact List.mem_map.mpr ⟨none, absent, rfl⟩

theorem Holds.calleesPresent_iff (holds : s.Holds T) : T.CalleesPresent ↔
    ∀ x, s.Reaches T.tag x → ∀ args, s.kind (some x) ≠ .ok (.call none args) := by
  rw [holds.forall_reached]
  refine forall₂_congr fun u below => ?_
  obtain ⟨range, kind, -⟩ := (holds.subtree below).kind_list
  rw [kind]
  cases own : u.kind with
  | call callee list => cases callee <;> simp [Kind.map]
  | _ => simp [Kind.map]

theorem Holds.listsFit_iff (holds : s.Holds T) : T.ListsFit ↔
    ∀ x, s.Reaches T.tag x → ∀ k, s.kind (some x) = .ok k → ∀ range, .inr range ∈ k.parts →
      range.len ≤ maxListLength := by
  rw [holds.forall_reached]
  refine forall₂_congr fun u below => ?_
  obtain ⟨range, kind, lists⟩ := (holds.subtree below).kind_list
  have length {list : List (Tree.Part Nat Name)} (mem : .inr list ∈ u.kind.parts) :
      list.length = range.len := by simpa using length_of_list (lists list mem)
  constructor
  · intro fit k same range' mem
    cases kind.symm.trans same
    rw [Kind.parts_map] at mem
    obtain ⟨part, inside, here⟩ := List.mem_map.mp mem
    cases part with
    | inl part => cases here
    | inr list =>
      cases here
      exact length inside ▸ fit list inside
  · intro fit list mem
    rw [length mem]
    refine fit _ kind range ?_
    rw [Kind.parts_map]
    exact List.mem_map_of_mem (f := Sum.map _ _) mem

theorem Holds.program_iff (holds : s.Holds T) :
    (∃ body, T.kind = .program body ∧ body.length < maxListLength) ↔
      ∃ range, s.kind (some T.tag) = .ok (.program range) ∧ range.len < maxListLength := by
  obtain ⟨range, kind, lists⟩ := holds.kind_list
  rw [kind]
  cases own : T.kind with
  | program body =>
    have length : body.length = range.len := by
      simpa using length_of_list (lists body (by simp [own, Kind.parts]))
    simp [Kind.map, length]
  | _ => simp [Kind.map]

/-- A store has a unit at a root if it holds a well-formed tree there. -/
theorem isUnit_iff : s.IsUnit root ↔ ∃ T : Tree Nat Name, T.tag = root ∧ WellFormed s T := by
  constructor
  · intro h
    obtain ⟨T, rfl, holds, distinct⟩ := h.tree.holds
    exact ⟨T, rfl, holds, distinct, holds.program_iff.mpr h.program,
      holds.entriesPresent_iff.mpr h.entries, holds.calleesPresent_iff.mpr h.callees,
      holds.listsFit_iff.mpr h.fit⟩
  · rintro ⟨T, rfl, h⟩
    exact ⟨h.holds.isTree h.distinct, h.holds.program_iff.mp h.program,
      h.holds.entriesPresent_iff.mp h.entries, h.holds.calleesPresent_iff.mp h.callees,
      h.holds.listsFit_iff.mp h.fit⟩

/-- Nothing is below the target of an assignment and below its value too. -/
theorem IsTree.assign_apart (h : s.IsTree root) {x y : Nat} {op : AssignOp} {target value : Nat}
    (reached : s.Reaches root x) (kind : s.kind (some x) = .ok (.assign op (some target) (some value)))
    (left : s.Reaches target y) : ¬ s.Reaches value y := by
  intro right
  obtain ⟨T, rfl, holds, distinct⟩ := h.holds
  obtain ⟨u, below, rfl⟩ := holds.mem_of_reaches reached
  obtain ⟨range, own, -⟩ := (holds.subtree below).kind_list
  rw [own] at kind
  cases inside : u.kind with
  | assign op' target' value' =>
    simp only [inside, Kind.map, Except.ok.injEq, Kind.assign.injEq, Option.map_eq_some_iff] at kind
    obtain ⟨-, ⟨t, rfl, rfl⟩, v, rfl, rfl⟩ := kind
    have children := Tree.children_of_assign inside
    have held {c : Tree Nat Name} (mem : c ∈ u.children) {y : Nat} (path : s.Reaches c.tag y) :
        y ∈ c.ids := by
      obtain ⟨w, mem, rfl⟩ := ((holds.subtree below).child mem).mem_of_reaches path
      exact List.mem_map_of_mem mem
    have once := Tree.nodup_children (Tree.nodup_subtree distinct below)
    rw [children] at once held
    have apart : List.Disjoint t.ids v.ids := by
      simpa [List.nodup_append, List.Disjoint] using once.disjoint
    exact apart (held (by simp) left) (held (by simp) right)
  | _ => simp [inside, Kind.map] at kind

end Store

/-! ## Lowered units -/

theorem Tree.calleesPresent_iff_everywhere {T : Tree Nat Name} :
    T.CalleesPresent ↔ T.Everywhere fun k => ∀ args, k ≠ .call false args := by
  refine forall₂_congr fun u _ => ?_
  unfold outline
  cases u.kind with
  | call callee args => cases callee <;> simp [Kind.map]
  | _ => simp [Kind.map]

/-- The rules do not leave out a callee. -/
theorem Tree.Lowers.calleesPresent {L : LibraryNames} {w : Spelling} {start : Nat} {R : Nat → Bool}
    {B : Nat → Option Nat} {T T' : Tree Nat Name} (h : Lowers L w start R B T T')
    (callees : T.CalleesPresent) : T'.CalleesPresent := by
  refine calleesPresent_iff_everywhere.mpr (h.everywhere ?_ (calleesPresent_iff_everywhere.mp callees))
  constructor <;> simp

end BigLower
