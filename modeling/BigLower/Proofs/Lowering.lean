import BigLower.Proofs.Judging

/-! # Lowered trees

What becomes of a tree in a pass, node by node. A lowered node calls a member of
the library that was added for it; every other node stays, with its subtrees
lowered. The nodes that are added have indices that no statement here depends on.
-/

namespace BigLower

/-! ## Names that are interned on the way -/

namespace Naming

variable {τ : Type} [Naming τ]

/-- One table has become another by interning some texts. -/
inductive Grows (a : τ) : τ → Prop where
  | refl : Grows a a
  | intern {b : τ} (h : Grows a b) (text : String) : Grows a (Naming.intern b text).2

theorem Grows.trans {a b c : τ} (first : Grows a b) (second : Grows b c) : Grows a c := by
  induction second with
  | refl => exact first
  | intern _ text ih => exact ih.intern text

def Spells (a b : τ) (text : String) (name : Name) : Prop :=
  ∃ m : τ, Grows a m ∧ (Naming.intern m text).1 = name ∧ Grows (Naming.intern m text).2 b

/-- A method of the mathematics object got the name of the library's method for it. -/
def Renames (a b : τ) (old new : Name) : Prop :=
  ∃ m : τ, Grows a m ∧ Spells m b (mathMethod (Naming.text m old)) new

theorem Spells.mono {a b c : τ} {text : String} {name : Name} (h : Spells a b text name)
    (later : Grows b c) : Spells a c text name := by
  obtain ⟨m, before, same, after⟩ := h
  exact ⟨m, before, same, after.trans later⟩

theorem Renames.mono {a b c : τ} {old new : Name} (h : Renames a b old new) (later : Grows b c) :
    Renames a c old new := by
  obtain ⟨m, before, spells⟩ := h
  exact ⟨m, before, spells.mono later⟩

end Naming

/-- Which names stand for the texts of library methods, and which for methods of mathematics. -/
structure Spelling where
  method : String → Name → Prop
  math : Name → Name → Prop

structure Spelling.Le (w w' : Spelling) : Prop where
  method : ∀ {text name}, w.method text name → w'.method text name
  math : ∀ {old new}, w.math old new → w'.math old new

theorem Spelling.Le.refl (w : Spelling) : w.Le w := ⟨id, id⟩

def Naming.spelling {τ : Type} [Naming τ] (a b : τ) : Spelling where
  method := Spells a b
  math := Renames a b

theorem Naming.Grows.spelling {τ : Type} [Naming τ] {a b c : τ} (later : Grows b c) :
    (Naming.spelling a b).Le (Naming.spelling a c) :=
  ⟨(·.mono later), (·.mono later)⟩

/-! ## The relation -/

def Kind.operation? {ν σ ρ : Type} : Kind ν σ ρ → Option (String × List σ)
  | binary op left right => op.method?.map (·, [left, right])
  | unary op operand => op.method?.map (·, [operand])
  | _ => none

theorem Kind.judged_of_operation? {ν σ ρ : Type} {k : Kind ν σ ρ} {method : String}
    {operands : List σ} (h : k.operation? = some (method, operands)) : k.judged = operands := by
  cases k with
  | binary op left right =>
    obtain ⟨_, found, same⟩ := Option.map_eq_some_iff.mp h
    cases same
    simp [judged, found]
  | unary op operand =>
    obtain ⟨_, found, same⟩ := Option.map_eq_some_iff.mp h
    cases same
    simp [judged, found]
  | _ => cases h

theorem Kind.length_operation? {ν σ ρ : Type} {k : Kind ν σ ρ} {method : String}
    {operands : List σ} (h : k.operation? = some (method, operands)) : operands.length ≤ 2 := by
  rw [← judged_of_operation? h]
  cases k <;> simp only [judged, List.length_nil, Nat.zero_le] <;> split <;> simp

def Kind.isInert {ν σ ρ : Type} : Kind ν σ ρ → Bool
  | .bigInt _ | .call .. | .binary .. | .unary .. | .assign .. => false
  | _ => true

namespace Tree

section Children

variable {T c : Tree Nat Name} {part : Part Nat Name} {args : List (Part Nat Name)}

theorem child_of_callee (kind : T.kind = .call (some c) args) : c ∈ T.children := by
  simp [mem_children_iff, kind, Kind.slots, Kind.parts]

theorem child_of_arg (kind : T.kind = .call part args) (mem : some c ∈ args) : c ∈ T.children := by
  simp [mem_children_iff, kind, Kind.slots, Kind.parts, mem]

theorem child_of_object {property : Name} (kind : T.kind = .member (some c) property) :
    c ∈ T.children := by
  simp [mem_children_iff, kind, Kind.slots, Kind.parts]

theorem child_of_assign {op : AssignOp} {target value : Part Nat Name}
    (kind : T.kind = .assign op target value) (mem : some c ∈ [target, value]) : c ∈ T.children := by
  simpa [mem_children_iff, kind, Kind.slots, Kind.parts] using mem

theorem child_of_operation {method : String} (op : T.kind.operation? = some (method, args))
    (mem : some c ∈ args) : c ∈ T.children :=
  child_of_judged (Kind.judged_of_operation? op ▸ mem)

theorem children_of_call (kind : T.kind = .call (some c) args) :
    T.children = c :: args.filterMap id := by
  simp [children, kind, Kind.slots, Kind.parts]

theorem children_of_assign {op : AssignOp} {target value : Part Nat Name}
    (kind : T.kind = .assign op target value) : T.children = target.toList ++ value.toList := by
  simp only [children, kind, Kind.slots, Kind.parts]
  cases target <;> cases value <;> rfl

theorem children_of_operation {method : String} (op : T.kind.operation? = some (method, args)) :
    T.children = args.filterMap id := by
  have slots : T.kind.slots = args := by
    cases kind : T.kind with
    | binary _ left right | unary _ operand =>
      rw [kind] at op
      obtain ⟨_, found, same⟩ := Option.map_eq_some_iff.mp op
      cases same
      rfl
    | _ => simp [kind, Kind.operation?] at op
  rw [children, slots]

theorem kind_of_operation {method : String} (op : T.kind.operation? = some (method, args)) :
    (∀ digits, T.kind ≠ .bigInt digits) ∧ (∀ callee args, T.kind ≠ .call callee args) ∧
      ∀ op target value, T.kind ≠ .assign op target value := by
  cases kind : T.kind <;> simp_all [Kind.operation?]

end Children

def libraryMember (library property : Name) (o m : Nat) : Tree Nat Name :=
  .node m (.member (some (.node o (.ident library))) property)

theorem ids_leaf {T : Tree Nat Name} (leaf : T.kind.parts = []) : T.ids = [T.tag] := by
  rw [ids_eq]
  simp [children, Kind.slots, leaf]

theorem ids_of_member {T object : Tree Nat Name} {property name : Name}
    (kind : T.kind = .member (some object) property) (leaf : object.kind = .ident name) :
    T.ids = [T.tag, object.tag] := by
  have children : T.children = [object] := by simp [Tree.children, kind, Kind.slots, Kind.parts]
  rw [ids_eq, children, List.flatMap_singleton, ids_leaf (by rw [leaf]; rfl)]

theorem ids_libraryMember (library property : Name) (o m : Nat) :
    (libraryMember library property o m).ids = [m, o] :=
  ids_of_member (T := libraryMember library property o m) rfl rfl

theorem ids_of_call {T callee : Tree Nat Name} {args : List (Part Nat Name)}
    (kind : T.kind = .call (some callee) args) :
    T.ids = T.tag :: (callee.ids ++ (args.filterMap id).flatMap ids) := by
  rw [ids_eq, children_of_call kind, List.flatMap_cons]

theorem some_mem_map {α β : Type} {f : α → β} {parts : List (Option α)} {c : β} :
    some c ∈ parts.map (Option.map f) ↔ ∃ c', some c' ∈ parts ∧ f c' = c := by
  simp only [List.mem_map, Option.map_eq_some_iff]
  constructor
  · rintro ⟨_, mem, c', rfl, same⟩
    exact ⟨c', mem, same⟩
  · rintro ⟨c', mem, same⟩
    exact ⟨some c', mem, c', rfl, same⟩

/-! ## What stays everywhere -/

section Everywhere

variable {α : Type} {Q : Kind Name Bool (List Bool) → Prop}

/-- The kind of the top, and of its parts no more than whether they are there. -/
def outline (T : Tree α Name) : Kind Name Bool (List Bool) :=
  T.kind.map Option.isSome (List.map Option.isSome)

def Everywhere (Q : Kind Name Bool (List Bool) → Prop) (T : Tree α Name) : Prop :=
  ∀ u ∈ T.subtrees, Q u.outline

theorem everywhere_iff {T : Tree α Name} :
    T.Everywhere Q ↔ Q T.outline ∧ ∀ c ∈ T.children, c.Everywhere Q := by
  unfold Everywhere
  rw [subtrees_eq]
  simp only [List.mem_cons, List.mem_flatMap, forall_eq_or_imp]
  exact and_congr_right fun _ => ⟨fun all c child u below => all u ⟨c, child, below⟩,
    fun all u ⟨c, child, below⟩ => all c child u below⟩

theorem Everywhere.child {T c : Tree α Name} (h : T.Everywhere Q) (child : c ∈ T.children) :
    c.Everywhere Q :=
  (everywhere_iff.mp h).2 c child

theorem outline_mapParts {β : Type} (f : Tree α Name → Tree β Name) (T : Tree α Name) :
    (T.kind.map (Option.map f) (List.map (Option.map f))).map Option.isSome (List.map Option.isSome) =
      T.outline := by
  have same : Option.isSome ∘ Option.map f = Option.isSome := funext fun part => Option.isSome_map
  have lists : List.map Option.isSome ∘ List.map (Option.map f) = List.map Option.isSome :=
    funext fun list => by rw [Function.comp_apply, List.map_map, same]
  rw [Kind.map_map, same, lists]
  rfl

theorem outline_mapChildren (f : Tree α Name → Tree α Name) (T : Tree α Name) :
    (T.mapChildren f).outline = T.outline :=
  outline_mapParts f T

theorem everywhere_form {T : Tree α Name} : T.form.Everywhere Q ↔ T.Everywhere Q := by
  have same (u : Tree α Name) : u.form.outline = u.outline := by
    rw [outline, kind_form, outline_mapParts]
  unfold Everywhere
  rw [subtrees_form]
  simp only [List.mem_map, forall_exists_index, and_imp, forall_apply_eq_imp_iff₂, same]

theorem everywhere_leaf {T : Tree α Name} (leaf : T.kind.parts = []) (own : Q T.outline) :
    T.Everywhere Q := by
  refine everywhere_iff.mpr ⟨own, ?_⟩
  simp [children, Kind.slots, leaf]

theorem listsFit_iff_everywhere {T : Tree α Name} : T.ListsFit ↔
    T.Everywhere fun k => ∀ list, .inr list ∈ k.parts → list.length ≤ Store.maxListLength := by
  refine forall₂_congr fun u _ => ?_
  simp only [outline, Kind.parts_map]
  constructor
  · intro fit list mem
    obtain ⟨part, inside, same⟩ := List.mem_map.mp mem
    cases part with
    | inl part => cases same
    | inr list' =>
      cases same
      simpa using fit list' inside
  · intro fit list mem
    simpa using fit _ (List.mem_map_of_mem mem)

end Everywhere

/-- The outlines of all nodes that a rule can add are of a sort. -/
structure AllowsCalls (library : Name) (Q : Kind Name Bool (List Bool) → Prop) : Prop where
  call : ∀ args, args.length ≤ 2 → Q (.call true args)
  member : ∀ property, Q (.member true property)
  ident : Q (.ident library)
  text : ∀ content, Q (.str content)
  assign : ∀ target, Q (.assign .plain target true)

theorem AllowsCalls.libraryCall {library : Name} {Q : Kind Name Bool (List Bool) → Prop}
    (allows : AllowsCalls library Q) {property : Name} {o m x : Nat} {args : List (Part Nat Name)}
    (own : Q (.call true (args.map Option.isSome))) (rest : ∀ c, some c ∈ args → c.Everywhere Q) :
    (node x (.call (some (libraryMember library property o m)) args)).Everywhere Q := by
  refine everywhere_iff.mpr ⟨own, fun c child => ?_⟩
  rw [children_of_call rfl] at child
  rcases List.mem_cons.mp child with rfl | mem
  · refine everywhere_iff.mpr ⟨allows.member property, fun c child => ?_⟩
    have here : c = .node o (.ident library) := by
      simpa [mem_children_iff, libraryMember, Tree.kind, Kind.slots, Kind.parts] using child
    rw [here]
    exact everywhere_leaf rfl allows.ident
  · exact rest c (by simpa using mem)

def isMember (T : Tree Nat Name) : Bool :=
  match T.kind with
  | .member .. => true
  | _ => false

def isConstructorCall {α : Type} (constructor : Name) (T : Tree α Name) : Bool :=
  match T.kind with
  | .call callee _ => callee.any (isConstructor constructor)
  | _ => false

/--
The first tree is lowered to the second. Which names the methods have is told by
`w`, which nodes a rule was applied to by `replaced`, and which variables they refer to
by `refers`; what a rule adds has indices from `start` on.
-/
inductive Lowers (L : LibraryNames) (w : Spelling) (start : Nat) (replaced : Nat → Bool)
    (refers : Nat → Option Nat) : Tree Nat Name → Tree Nat Name → Prop where
  | literal {T : Tree Nat Name} {digits : Name} {o m x : Nat} :
      T.kind = .bigInt digits → replaced T.tag = true → (∀ y ∈ [o, m, x], start ≤ y) →
      Lowers L w start replaced refers T (.node T.tag (.call
        (some (libraryMember L.library L.factory o m)) [some (.node x (.str digits))]))
  | constructor {T callee : Tree Nat Name} {args : List (Part Nat Name)} {o m : Nat}
      (f : Tree Nat Name → Tree Nat Name) :
      T.kind = .call (some callee) args → callee.isConstructor L.constructor = true →
      replaced T.tag = true → (∀ y ∈ [o, m], start ≤ y) →
      (∀ c, some c ∈ args → Lowers L w start replaced refers c (f c)) →
      Lowers L w start replaced refers T (.node T.tag (.call
        (some (libraryMember L.library (L.memberFor callee.kind) o m))
        (args.map (Option.map f))))
  | operation {T : Tree Nat Name} {method : String} {operands : List (Part Nat Name)}
      {property : Name} {o m : Nat} (f : Tree Nat Name → Tree Nat Name) :
      T.kind.operation? = some (method, operands) → w.method method property →
      replaced T.tag = true → (∀ y ∈ [o, m], start ≤ y) →
      (∀ c, some c ∈ operands → Lowers L w start replaced refers c (f c)) →
      Lowers L w start replaced refers T (.node T.tag (.call
        (some (libraryMember L.library property o m)) (operands.map (Option.map f))))
  | compound {T : Tree Nat Name} {op : AssignOp} {target value copy : Part Nat Name}
      {method : String} {property : Name} {o m call : Nat} (f : Tree Nat Name → Tree Nat Name) :
      T.kind = .assign op target value → op.method? = some method →
      w.method method property → replaced T.tag = true → (∀ y ∈ [o, m, call], start ≤ y) →
      (∀ c, some c ∈ [target, value] → Lowers L w start replaced refers c (f c)) →
      copy.map (relabel refers) = (target.map f).map (relabel refers) →
      (∀ D ∈ copy, ∀ x ∈ D.ids, start ≤ x) →
      Lowers L w start replaced refers T (.node T.tag (.assign .plain (target.map f)
        (some (.node call (.call (some (libraryMember L.library property o m))
          [copy, value.map f])))))
  | redirect {T callee object : Tree Nat Name} {args : List (Part Nat Name)}
      {property property' : Name} (f : Tree Nat Name → Tree Nat Name) :
      T.kind = .call (some callee) args → callee.isConstructor L.constructor = false →
      callee.kind = .member (some object) property → object.kind = .ident L.math →
      w.math property property' → replaced T.tag = true →
      (∀ c, some c ∈ args → Lowers L w start replaced refers c (f c)) →
      Lowers L w start replaced refers T (.node T.tag (.call
        (some (libraryMember L.library property' object.tag callee.tag)) (args.map (Option.map f))))
  | keep {T : Tree Nat Name} (f : Tree Nat Name → Tree Nat Name) :
      (∀ digits, T.kind ≠ .bigInt digits) → T.isConstructorCall L.constructor = false →
      (replaced T.tag = true → ∃ callee args, T.kind = .call callee args) →
      (∀ c ∈ T.children, Lowers L w start replaced refers c (f c)) →
      Lowers L w start replaced refers T (T.mapChildren f)

namespace Lowers

variable {L : LibraryNames} {w w' : Spelling} {start : Nat} {R R' : Nat → Bool}
  {B B' : Nat → Option Nat} {T T' : Tree Nat Name}

theorem tag_eq (h : Lowers L w start R B T T') : T'.tag = T.tag := by
  cases h <;> rfl

theorem eq_of_leaf (h : Lowers L w start R B T T') (leaf : T.kind.parts = [])
    (literal : ∀ digits, T.kind ≠ .bigInt digits) : T' = T := by
  obtain ⟨x, k⟩ := T
  cases k with
  | bigInt digits => exact (literal digits rfl).elim
  | importDefault | param | number | str | bool | null | ident =>
    cases h <;> first | rfl | contradiction
  | _ => cases leaf

theorem eq_of_ident (h : Lowers L w start R B T T') {name : Name} (kind : T.kind = .ident name) :
    T' = T :=
  h.eq_of_leaf (by rw [kind]; rfl) (by simp [kind])

theorem eq_of_member (h : Lowers L w start R B T T') {object : Tree Nat Name} {name property : Name}
    (kind : T.kind = .member (some object) property) (inside : object.kind = .ident name) :
    T' = T := by
  obtain ⟨x, k⟩ := T
  cases kind
  cases h with
  | keep f _ _ _ below =>
    have same := (below object (child_of_object rfl)).eq_of_ident inside
    simp [mapChildren, Tree.kind, Tree.tag, Kind.map, same]
  | _ => contradiction

theorem kind_of_member (h : Lowers L w start R B T T') {object : Part Nat Name} {property : Name}
    (kind : T.kind = .member object property) :
    ∃ f, T'.kind = .member (object.map f) property ∧
      (object.map f).map Tree.tag = object.map Tree.tag := by
  obtain ⟨x, k⟩ := T
  cases kind
  cases h with
  | keep f _ _ _ below =>
    refine ⟨f, rfl, ?_⟩
    cases object with
    | none => rfl
    | some c => exact congrArg some (below c (child_of_object rfl)).tag_eq
  | _ => contradiction

theorem kind_ne_member (h : Lowers L w start R B T T') (other : T.isMember = false) :
    T'.isMember = false := by
  cases h with
  | keep f =>
    unfold isMember at other ⊢
    rw [kind_mapChildren]
    cases kind : T.kind <;> simp_all [Kind.map]
  | _ => rfl

/-- Later names, and later marks and references outside the trees, make no difference. -/
theorem mono (h : Lowers L w start R B T T') (later : w.Le w')
    (same : ∀ x ∈ T.ids, R' x = R x) (alike : ∀ x ∈ T'.ids, B' x = B x) :
    Lowers L w' start R' B' T T' := by
  have inside {x : Nat} {callee : Part Nat Name} {args : List (Part Nat Name)}
      {f : Tree Nat Name → Tree Nat Name} {c : Tree Nat Name} (mem : some c ∈ args) :
      ∀ y ∈ (f c).ids, y ∈ (node x (.call callee (args.map (Option.map f)))).ids :=
    fun y deep => mem_ids_of_child (child_of_arg rfl (some_mem_map.mpr ⟨c, mem, rfl⟩)) deep
  induction h with
  | literal kind own fresh => exact .literal kind ((same _ (tag_mem_ids _)).trans own) fresh
  | constructor f kind callee own fresh _ ih =>
    exact .constructor f kind callee ((same _ (tag_mem_ids _)).trans own) fresh fun c mem =>
      ih c mem (fun x deep => same x (mem_ids_of_child (child_of_arg kind mem) deep))
        fun x deep => alike x (inside mem x deep)
  | operation f op spells own fresh _ ih =>
    exact .operation f op (later.method spells) ((same _ (tag_mem_ids _)).trans own) fresh
      fun c mem => ih c mem (fun x deep => same x (mem_ids_of_child (child_of_operation op mem) deep))
        fun x deep => alike x (inside mem x deep)
  | @compound T op target value copy _ _ o m call f kind method spells own fresh _ copied new ih =>
    have target' {D : Tree Nat Name} (mem : D ∈ target.map f) : ∀ x ∈ D.ids, B' x = B x :=
      fun x deep => alike x (mem_ids_of_child (child_of_assign rfl (mem ▸ List.mem_cons_self)) deep)
    have args {D : Tree Nat Name} (mem : some D ∈ [copy, value.map f]) : ∀ x ∈ D.ids, B' x = B x := by
      intro x deep
      refine alike x (mem_ids_of_child (child_of_assign rfl
        (List.mem_cons_of_mem _ List.mem_cons_self)) ?_)
      exact mem_ids_of_child (child_of_arg rfl mem) deep
    refine .compound f kind method (later.method spells) ((same _ (tag_mem_ids _)).trans own) fresh
      (fun c mem => ih c mem (fun x deep =>
        same x (mem_ids_of_child (child_of_assign kind mem) deep)) ?_) ?_ new
    · rcases List.mem_pair.mp mem with rfl | rfl
      · exact target' rfl
      · exact args (List.mem_cons_of_mem _ List.mem_cons_self)
    · rw [relabelPart_congr fun D mem => args (mem ▸ List.mem_cons_self), copied,
        relabelPart_congr fun D mem => target' mem]
  | redirect f kind plain callee object renames own _ ih =>
    exact .redirect f kind plain callee object (later.math renames)
      ((same _ (tag_mem_ids _)).trans own) fun c mem =>
        ih c mem (fun x deep => same x (mem_ids_of_child (child_of_arg kind mem) deep))
          fun x deep => alike x (inside mem x deep)
  | @keep T f literal call own _ ih =>
    refine .keep f literal call (fun marked => own ?_) fun c child =>
      ih c child (fun x deep => same x (mem_ids_of_child child deep))
        fun x deep => alike x (mem_ids_of_child ?_ deep)
    · rw [← same _ (tag_mem_ids _), marked]
    · rw [children_mapChildren]
      exact List.mem_map_of_mem child

/-- What is so of the outlines before is so of those after, if the rules allow it. -/
theorem everywhere {Q : Kind Name Bool (List Bool) → Prop} (h : Lowers L w start R B T T')
    (allows : AllowsCalls L.library Q) (before : T.Everywhere Q) : T'.Everywhere Q := by
  have called {T callee : Tree Nat Name} {args : List (Part Nat Name)} (before : T.Everywhere Q)
      (kind : T.kind = .call (some callee) args) (f : Tree Nat Name → Tree Nat Name) :
      Q (.call true ((args.map (Option.map f)).map Option.isSome)) := by
    have own := (everywhere_iff.mp before).1
    have same : (args.map (Option.map f)).map Option.isSome = args.map Option.isSome := by simp
    rwa [outline, kind, Kind.map, ← same] at own
  induction h with
  | literal kind own _ =>
    refine allows.libraryCall (allows.call _ (by simp)) fun c mem => ?_
    cases List.mem_singleton.mp mem
    exact everywhere_leaf rfl (allows.text _)
  | constructor f kind _ _ _ _ ih | redirect f kind _ _ _ _ _ _ ih =>
    refine allows.libraryCall (called before kind f) fun c mem => ?_
    obtain ⟨c, inside, rfl⟩ := some_mem_map.mp mem
    exact ih c inside (before.child (child_of_arg kind inside))
  | operation f op spells own _ _ ih =>
    refine allows.libraryCall (allows.call _ ?_) fun c mem => ?_
    · simpa using Kind.length_operation? op
    · obtain ⟨c, inside, rfl⟩ := some_mem_map.mp mem
      exact ih c inside (before.child (child_of_operation op inside))
  | @compound T op target value copy method property o m call f kind found spells own _ _ alike _ ih =>
    have part {c : Tree Nat Name} (mem : some c ∈ [target, value].map (Option.map f)) :
        c.Everywhere Q := by
      obtain ⟨c, inside, rfl⟩ := some_mem_map.mp mem
      exact ih c inside (before.child (child_of_assign kind inside))
    refine everywhere_iff.mpr ⟨allows.assign _, fun c child => ?_⟩
    rcases List.mem_pair.mp (mem_children_iff.mp child) with first | second
    · exact part (first ▸ List.mem_cons_self)
    · cases second
      refine allows.libraryCall (allows.call _ (by simp)) fun c mem => ?_
      rcases List.mem_pair.mp mem with rfl | last
      · obtain ⟨c', target', form⟩ := Option.map_eq_some_iff.mp (form_of_relabel alike).symm
        rw [← everywhere_form, ← form, everywhere_form]
        exact part (target' ▸ List.mem_cons_self)
      · exact part (last ▸ List.mem_cons_of_mem _ List.mem_cons_self)
  | keep f _ _ _ _ ih =>
    refine everywhere_iff.mpr ⟨?_, fun c child => ?_⟩
    · rw [outline_mapChildren]
      exact (everywhere_iff.mp before).1
    · rw [children_mapChildren] at child
      obtain ⟨c, inside, rfl⟩ := List.mem_map.mp child
      exact ih c inside (before.child inside)

theorem listsFit (h : Lowers L w start R B T T') (fit : T.ListsFit) : T'.ListsFit := by
  refine listsFit_iff_everywhere.mpr (h.everywhere ?_ (listsFit_iff_everywhere.mp fit))
  constructor <;> simp [Kind.parts, Store.maxListLength]
  omega

end Lowers

end Tree

end BigLower
