import BigLower.Syntax.Tree
import Mathlib.Data.List.Nodup
import Mathlib.Data.List.Pairwise
import Mathlib.Data.List.Perm.Basic

/-! # Subtrees

A tree is the list of its subtrees, each with its tag and its kind. Whatever is
to hold everywhere in a tree is stated of the members of that list, and proved
by induction over the children.
-/

namespace BigLower

namespace Kind

variable {ν σ ρ σ' ρ' σ'' ρ'' : Type}

/-! ## Kinds part by part -/

def map (f : σ → σ') (g : ρ → ρ') : Kind ν σ ρ → Kind ν σ' ρ'
  | program body => .program (g body)
  | importDefault binder source => .importDefault binder source
  | varDecl keyword declarators => .varDecl keyword (g declarators)
  | declarator name value => .declarator name (f value)
  | function name params body => .function name (g params) (f body)
  | param name => .param name
  | ret value => .ret (f value)
  | cond test yes no => .cond (f test) (f yes) (f no)
  | block body => .block (g body)
  | exprStmt expr => .exprStmt (f expr)
  | bigInt digits => .bigInt digits
  | number digits => .number digits
  | str content => .str content
  | bool value => .bool value
  | null => .null
  | ident name => .ident name
  | member object property => .member (f object) property
  | call callee args => .call (f callee) (g args)
  | binary op left right => .binary op (f left) (f right)
  | unary op operand => .unary op (f operand)
  | assign op target value => .assign op (f target) (f value)
  | array elements => .array (g elements)
  | arrow params body => .arrow (g params) (f body)

/-- All slots of a kind in evaluation order, those in lists among them. -/
def slots (k : Kind ν σ (List σ)) : List σ :=
  k.parts.flatMap (Sum.elim (fun slot => [slot]) id)

theorem map_map (f : σ → σ') (g : ρ → ρ') (f' : σ' → σ'') (g' : ρ' → ρ'') (k : Kind ν σ ρ) :
    (k.map f g).map f' g' = k.map (f' ∘ f) (g' ∘ g) := by
  cases k <;> rfl

theorem parts_map (f : σ → σ') (g : ρ → ρ') (k : Kind ν σ ρ) :
    (k.map f g).parts = k.parts.map (Sum.map f g) := by
  cases k <;> rfl

@[simp] theorem slots_map (f : σ → σ') (k : Kind ν σ (List σ)) :
    (k.map f (List.map f)).slots = k.slots.map f := by
  cases k <;> simp [slots, parts, map]

theorem map_congr {f g : σ → σ'} {k : Kind ν σ (List σ)} (same : ∀ slot ∈ k.slots, f slot = g slot) :
    k.map f (List.map f) = k.map g (List.map g) := by
  cases k <;> simp_all [slots, parts, map]

/-- Kinds that are alike in one way and slot by slot in another are alike in the other way. -/
theorem map_eq_of_slots {γ γ' : Type} {f : σ → γ} {g : σ' → γ} {f' : σ → γ'} {g' : σ' → γ'}
    {k : Kind ν σ (List σ)} {k' : Kind ν σ' (List σ')}
    (alike : k.map f (List.map f) = k'.map g (List.map g))
    (slots : k.slots.map f' = k'.slots.map g') :
    k.map f' (List.map f') = k'.map g' (List.map g') := by
  cases k <;> cases k' <;> simp only [map, reduceCtorEq] at alike <;>
    simp_all [map, Kind.slots, parts]

end Kind

abbrev TreeKind := Kind Name (Tree.Part Nat Name) (List (Tree.Part Nat Name))

namespace Tree

variable {α β γ ν : Type}

/-! ## Subtrees -/

def children (T : Tree α ν) : List (Tree α ν) :=
  T.kind.slots.filterMap id

theorem mem_children_iff {T c : Tree α ν} : c ∈ T.children ↔ some c ∈ T.kind.slots := by
  simp [children]

mutual

/-- Combine each tree with the results for its children, from the leaves up. -/
def fold (f : Tree α ν → List γ → γ) : Tree α ν → γ
  | .node tag kind => f (.node tag kind) (foldKind f kind)

def foldKind (f : Tree α ν → List γ → γ) : Kind ν (Part α ν) (List (Part α ν)) → List γ
  | .program body | .varDecl _ body | .block body | .array body => foldList f body
  | .declarator _ value | .ret value | .exprStmt value | .member value _ | .unary _ value =>
    foldPart f value
  | .function _ params body | .arrow params body => foldList f params ++ foldPart f body
  | .cond test yes no => foldPart f test ++ (foldPart f yes ++ foldPart f no)
  | .call callee args => foldPart f callee ++ foldList f args
  | .binary _ left right | .assign _ left right => foldPart f left ++ foldPart f right
  | .importDefault .. | .param _ | .bigInt _ | .number _ | .str _ | .bool _ | .null | .ident _ => []

def foldPart (f : Tree α ν → List γ → γ) : Part α ν → List γ
  | none => []
  | some tree => [fold f tree]

def foldList (f : Tree α ν → List γ → γ) : List (Part α ν) → List γ
  | [] => []
  | part :: rest => foldPart f part ++ foldList f rest

end

theorem foldPart_eq (f : Tree α ν → List γ → γ) (part : Part α ν) :
    foldPart f part = part.toList.map (fold f) := by
  cases part with
  | none => rfl
  | some tree => rfl

theorem foldList_eq (f : Tree α ν → List γ → γ) (list : List (Part α ν)) :
    foldList f list = (list.filterMap id).map (fold f) := by
  induction list with
  | nil => rfl
  | cons part rest ih =>
    cases part with
    | none => simp [foldList, foldPart, ih]
    | some tree => simp [foldList, foldPart, ih]

theorem fold_eq (f : Tree α ν → List γ → γ) (T : Tree α ν) :
    T.fold f = f T (T.children.map (fold f)) := by
  obtain ⟨tag, kind⟩ := T
  have toList (part : Part α ν) : part.toList = [part].filterMap id := by
    cases part <;> rfl
  have below : foldKind f kind = (kind.slots.filterMap id).map (fold f) := by
    cases kind <;>
      simp [foldKind, Kind.slots, Kind.parts, foldList_eq, foldPart_eq, toList,
        ← List.filterMap_append, ← List.map_append]
  rw [fold, below]
  rfl

/-- The tree and everything below it, a parent before its children. -/
def subtrees : Tree α ν → List (Tree α ν) :=
  fold fun T below => T :: below.flatten

theorem subtrees_eq (T : Tree α ν) : T.subtrees = T :: T.children.flatMap subtrees := by
  unfold subtrees
  rw [fold_eq, List.flatMap_def]

theorem self_mem_subtrees (T : Tree α ν) : T ∈ T.subtrees := by
  rw [subtrees_eq]
  exact List.mem_cons_self

theorem mem_subtrees_iff {T u : Tree α ν} :
    u ∈ T.subtrees ↔ u = T ∨ ∃ c ∈ T.children, u ∈ c.subtrees := by
  rw [subtrees_eq, List.mem_cons, List.mem_flatMap]

theorem mem_subtrees_of_child {T u c : Tree α ν} (child : c ∈ T.children) (below : u ∈ c.subtrees) :
    u ∈ T.subtrees :=
  mem_subtrees_iff.mpr (.inr ⟨c, child, below⟩)

theorem child_mem_subtrees {T c : Tree α ν} (child : c ∈ T.children) : c ∈ T.subtrees :=
  mem_subtrees_of_child child c.self_mem_subtrees

theorem length_subtrees_lt {T c : Tree α ν} (child : c ∈ T.children) :
    c.subtrees.length < T.subtrees.length := by
  obtain ⟨before, after, split⟩ := List.append_of_mem child
  rw [subtrees_eq T, split]
  simp only [List.flatMap_append, List.flatMap_cons, List.length_cons, List.length_append]
  omega

/-- What holds of a tree whenever it holds of its children holds of every tree. -/
theorem induction {P : Tree α ν → Prop} (step : ∀ T, (∀ c ∈ T.children, P c) → P T) (T : Tree α ν) :
    P T :=
  step T fun c _ => induction step c
termination_by T.subtrees.length
decreasing_by exact length_subtrees_lt ‹_›

theorem subtrees_trans {T u v : Tree α ν} (outer : u ∈ T.subtrees) (inner : v ∈ u.subtrees) :
    v ∈ T.subtrees := by
  induction T using induction with
  | step T ih =>
    rcases mem_subtrees_iff.mp outer with rfl | ⟨c, child, below⟩
    · exact inner
    · exact mem_subtrees_of_child child (ih c child below)

theorem length_subtrees_le {T u : Tree α ν} (below : u ∈ T.subtrees) :
    u.subtrees.length ≤ T.subtrees.length := by
  induction T using induction with
  | step T ih =>
    rcases mem_subtrees_iff.mp below with rfl | ⟨c, child, inside⟩
    · exact Nat.le_refl _
    · exact Nat.le_trans (ih c child inside) (Nat.le_of_lt (length_subtrees_lt child))

/-- No tree is strictly below itself. -/
theorem subtrees_antisymm {T u : Tree α ν} (below : u ∈ T.subtrees) (above : T ∈ u.subtrees) :
    u = T := by
  rcases mem_subtrees_iff.mp below with same | ⟨c, child, inside⟩
  · exact same
  · have first := length_subtrees_le inside
    have second := length_subtrees_lt child
    have third := length_subtrees_le above
    omega

theorem exists_parent {T u : Tree α ν} (below : u ∈ T.subtrees) (other : u ≠ T) :
    ∃ v ∈ T.subtrees, u ∈ v.children := by
  induction T using induction with
  | step T ih =>
    rcases mem_subtrees_iff.mp below with same | ⟨c, child, inside⟩
    · exact (other same).elim
    · by_cases same : u = c
      · exact ⟨T, T.self_mem_subtrees, same ▸ child⟩
      · obtain ⟨v, deep, parent⟩ := ih c child inside same
        exact ⟨v, mem_subtrees_of_child child deep, parent⟩

/-- Every subtree but the whole is the child of one subtree. -/
theorem subtrees_perm (T : Tree α ν) :
    (T :: T.subtrees.flatMap children).Perm T.subtrees := by
  induction T using induction with
  | step T ih =>
    rw [subtrees_eq T]
    refine List.Perm.cons T ?_
    have single : T.children = T.children.flatMap fun c => [c] := by simp
    have split : (T :: T.children.flatMap subtrees).flatMap children =
        T.children.flatMap (fun c => [c]) ++
          T.children.flatMap fun c => c.subtrees.flatMap children := by
      rw [List.flatMap_cons, List.flatMap_assoc, ← single]
    rw [split]
    exact (List.flatMap_append_perm _ _ _).trans (List.Perm.flatMap_left _ ih)

/-! ## Tags -/

def ids (T : Tree α ν) : List α :=
  T.subtrees.map tag

theorem ids_eq (T : Tree α ν) : T.ids = T.tag :: T.children.flatMap ids := by
  unfold ids
  rw [subtrees_eq, List.map_cons, List.map_flatMap]

theorem tag_mem_ids (T : Tree α ν) : T.tag ∈ T.ids :=
  List.mem_map_of_mem T.self_mem_subtrees

theorem mem_ids_iff {T : Tree α ν} {a : α} :
    a ∈ T.ids ↔ a = T.tag ∨ ∃ c ∈ T.children, a ∈ c.ids := by
  rw [ids_eq, List.mem_cons, List.mem_flatMap]

theorem mem_ids_of_child {T c : Tree α ν} {a : α} (child : c ∈ T.children) (below : a ∈ c.ids) :
    a ∈ T.ids :=
  mem_ids_iff.mpr (.inr ⟨c, child, below⟩)

theorem mem_ids_of_subtree {T u : Tree α ν} {a : α} (below : u ∈ T.subtrees) (inside : a ∈ u.ids) :
    a ∈ T.ids := by
  obtain ⟨v, mem, rfl⟩ := List.mem_map.mp inside
  exact List.mem_map_of_mem (subtrees_trans below mem)

theorem length_ids_lt {T c : Tree α ν} (child : c ∈ T.children) : c.ids.length < T.ids.length := by
  simpa [ids] using length_subtrees_lt child

section Distinct

variable {T : Tree α ν}

theorem tag_not_mem_child (distinct : T.ids.Nodup) {c : Tree α ν} (child : c ∈ T.children) :
    T.tag ∉ c.ids := by
  rw [ids_eq, List.nodup_cons] at distinct
  intro mem
  exact distinct.1 (List.mem_flatMap.mpr ⟨c, child, mem⟩)

theorem mem_ids_of_below {x : α} (mem : x ∈ T.children.flatMap ids) : x ∈ T.ids := by
  rw [ids_eq]
  exact List.mem_cons_of_mem _ mem

theorem tag_not_mem_below (distinct : T.ids.Nodup) : T.tag ∉ T.children.flatMap ids := by
  rw [ids_eq] at distinct
  exact (List.nodup_cons.mp distinct).1

theorem nodup_children (distinct : T.ids.Nodup) : (T.children.flatMap ids).Nodup := by
  rw [ids_eq, List.nodup_cons] at distinct
  exact distinct.2

theorem nodup_child (distinct : T.ids.Nodup) {c : Tree α ν} (child : c ∈ T.children) :
    c.ids.Nodup :=
  (List.nodup_flatMap.mp (nodup_children distinct)).1 c child

theorem nodup_subtree (distinct : T.ids.Nodup) {u : Tree α ν} (below : u ∈ T.subtrees) :
    u.ids.Nodup := by
  induction T using induction with
  | step T ih =>
    rcases mem_subtrees_iff.mp below with rfl | ⟨c, child, inside⟩
    · exact distinct
    · exact ih c child (nodup_child distinct child) inside

/-- A tag stands for one subtree. -/
theorem eq_of_tag_eq (distinct : T.ids.Nodup) {u v : Tree α ν} (hu : u ∈ T.subtrees)
    (hv : v ∈ T.subtrees) (same : u.tag = v.tag) : u = v :=
  List.inj_on_of_nodup_map distinct hu hv same

theorem parent_unique (distinct : T.ids.Nodup) {u v c d : Tree α ν} (hu : u ∈ T.subtrees)
    (hv : v ∈ T.subtrees) (hc : c ∈ u.children) (hd : d ∈ v.children) (same : c.tag = d.tag) :
    u = v := by
  have whole : c = d := eq_of_tag_eq distinct (subtrees_trans hu (child_mem_subtrees hc))
    (subtrees_trans hv (child_mem_subtrees hd)) same
  subst whole
  have once : (T.subtrees.flatMap children).Nodup :=
    (List.nodup_cons.mp (T.subtrees_perm.nodup_iff.mpr distinct.of_map)).2
  have apart := (List.nodup_flatMap.mp once).2
  by_contra different
  have symmetric : Std.Symm (Function.onFun List.Disjoint (@children α ν)) :=
    ⟨fun _ _ h _ left right => h right left⟩
  exact apart.forall hu hv different hc hd

end Distinct

/-! ## New children -/

def mapChildren (f : Tree α ν → Tree α ν) (T : Tree α ν) : Tree α ν :=
  .node T.tag (T.kind.map (Option.map f) (List.map (Option.map f)))

@[simp] theorem tag_mapChildren (f : Tree α ν → Tree α ν) (T : Tree α ν) :
    (T.mapChildren f).tag = T.tag := rfl

@[simp] theorem kind_mapChildren (f : Tree α ν → Tree α ν) (T : Tree α ν) :
    (T.mapChildren f).kind = T.kind.map (Option.map f) (List.map (Option.map f)) := rfl

@[simp] theorem children_mapChildren (f : Tree α ν → Tree α ν) (T : Tree α ν) :
    (T.mapChildren f).children = T.children.map f := by
  unfold children
  rw [kind_mapChildren, Kind.slots_map, List.filterMap_map, List.map_filterMap]
  rfl

/-! ## Trees without their tags -/

mutual

def relabel (f : α → β) : Tree α ν → Tree β ν
  | .node tag kind => .node (f tag) (relabelKind f kind)

def relabelKind (f : α → β) :
    Kind ν (Part α ν) (List (Part α ν)) → Kind ν (Part β ν) (List (Part β ν))
  | .program body => .program (relabelList f body)
  | .importDefault binder source => .importDefault binder source
  | .varDecl keyword declarators => .varDecl keyword (relabelList f declarators)
  | .declarator name value => .declarator name (relabelPart f value)
  | .function name params body => .function name (relabelList f params) (relabelPart f body)
  | .param name => .param name
  | .ret value => .ret (relabelPart f value)
  | .cond test yes no => .cond (relabelPart f test) (relabelPart f yes) (relabelPart f no)
  | .block body => .block (relabelList f body)
  | .exprStmt expr => .exprStmt (relabelPart f expr)
  | .bigInt digits => .bigInt digits
  | .number digits => .number digits
  | .str content => .str content
  | .bool value => .bool value
  | .null => .null
  | .ident name => .ident name
  | .member object property => .member (relabelPart f object) property
  | .call callee args => .call (relabelPart f callee) (relabelList f args)
  | .binary op left right => .binary op (relabelPart f left) (relabelPart f right)
  | .unary op operand => .unary op (relabelPart f operand)
  | .assign op target value => .assign op (relabelPart f target) (relabelPart f value)
  | .array elements => .array (relabelList f elements)
  | .arrow params body => .arrow (relabelList f params) (relabelPart f body)

def relabelPart (f : α → β) : Part α ν → Part β ν
  | none => none
  | some tree => some (relabel f tree)

def relabelList (f : α → β) : List (Part α ν) → List (Part β ν)
  | [] => []
  | part :: rest => relabelPart f part :: relabelList f rest

end

theorem relabelPart_eq (f : α → β) (part : Part α ν) :
    relabelPart f part = part.map (relabel f) := by
  cases part <;> rfl

theorem relabelList_eq (f : α → β) (list : List (Part α ν)) :
    relabelList f list = list.map (Option.map (relabel f)) := by
  induction list with
  | nil => rfl
  | cons part rest ih => rw [relabelList, relabelPart_eq, ih, List.map_cons]

theorem relabel_eq (f : α → β) (T : Tree α ν) :
    T.relabel f =
      .node (f T.tag) (T.kind.map (Option.map (relabel f)) (List.map (Option.map (relabel f)))) := by
  obtain ⟨tag, kind⟩ := T
  rw [relabel]
  cases kind <;> simp [relabelKind, relabelPart_eq, relabelList_eq, Tree.kind, Tree.tag, Kind.map]

theorem tag_relabel (f : α → β) (T : Tree α ν) : (T.relabel f).tag = f T.tag := by
  rw [relabel_eq]
  rfl

theorem kind_relabel (f : α → β) (T : Tree α ν) :
    (T.relabel f).kind = T.kind.map (Option.map (relabel f)) (List.map (Option.map (relabel f))) := by
  rw [relabel_eq]
  rfl

theorem children_relabel (f : α → β) (T : Tree α ν) :
    (T.relabel f).children = T.children.map (relabel f) := by
  unfold children
  rw [kind_relabel, Kind.slots_map, List.filterMap_map, List.map_filterMap]
  rfl

theorem subtrees_relabel (f : α → β) (T : Tree α ν) :
    (T.relabel f).subtrees = T.subtrees.map (relabel f) := by
  induction T using induction with
  | step T ih =>
    rw [subtrees_eq, subtrees_eq T, children_relabel, List.map_cons, List.map_flatMap,
      List.flatMap_map, List.flatMap_congr ih]

/-- What is below the one of two trees that come to the same is below the other, too. -/
theorem exists_relabelled {f : α → β} {D D' v' : Tree α ν} (same : D'.relabel f = D.relabel f)
    (below : v' ∈ D'.subtrees) : ∃ v ∈ D.subtrees, v'.relabel f = v.relabel f := by
  have mem : v'.relabel f ∈ (D.relabel f).subtrees := by
    rw [← same, subtrees_relabel]
    exact List.mem_map_of_mem below
  rw [subtrees_relabel] at mem
  obtain ⟨v, inside, alike⟩ := List.mem_map.mp mem
  exact ⟨v, inside, alike.symm⟩

theorem relabel_congr {f g : α → β} {T : Tree α ν} (same : ∀ x ∈ T.ids, f x = g x) :
    T.relabel f = T.relabel g := by
  induction T using induction with
  | step T ih =>
    have below : ∀ part ∈ T.kind.slots, Option.map (relabel f) part = Option.map (relabel g) part := by
      intro part mem
      cases part with
      | none => rfl
      | some c =>
        have child : c ∈ T.children := mem_children_iff.mpr mem
        exact congrArg some (ih c child fun x inside => same x (mem_ids_of_child child inside))
    rw [relabel_eq, relabel_eq g, same T.tag T.tag_mem_ids, Kind.map_congr below]

theorem relabelPart_congr {f g : α → β} {part : Part α ν}
    (same : ∀ T ∈ part, ∀ x ∈ T.ids, f x = g x) : part.map (relabel f) = part.map (relabel g) := by
  cases part with
  | none => rfl
  | some T => exact congrArg some (relabel_congr (same T rfl))

theorem relabel_relabel (f : α → β) (g : β → γ) (T : Tree α ν) :
    (T.relabel f).relabel g = T.relabel (g ∘ f) := by
  induction T using induction with
  | step T ih =>
    have below : ∀ part ∈ T.kind.slots,
        (Option.map (relabel g) ∘ Option.map (relabel f)) part = Option.map (relabel (g ∘ f)) part := by
      intro part mem
      cases part with
      | none => rfl
      | some c => exact congrArg some (ih c (mem_children_iff.mpr mem))
    have lists : List.map (Option.map (relabel g)) ∘ List.map (Option.map (relabel f)) =
        List.map (Option.map (@relabel β γ ν g) ∘ Option.map (relabel f)) :=
      funext fun list => List.map_map
    rw [relabel_eq, relabel_eq f, relabel_eq (g ∘ f)]
    show node _ ((T.kind.map _ _).map _ _) = _
    rw [Kind.map_map, lists, Kind.map_congr below]
    rfl

def form (T : Tree α ν) : Tree Unit ν :=
  T.relabel fun _ => ()

theorem form_of_relabel {f : α → β} {part part' : Part α ν}
    (same : part.map (relabel f) = part'.map (relabel f)) : part.map form = part'.map form := by
  have forget : form ∘ relabel f = @form α ν := funext fun T => relabel_relabel f (fun _ => ()) T
  have both := congrArg (Option.map form) same
  rwa [Option.map_map, Option.map_map, forget] at both

theorem kind_form (T : Tree α ν) :
    T.form.kind = T.kind.map (Option.map form) (List.map (Option.map form)) :=
  T.kind_relabel _

theorem children_form (T : Tree α ν) : T.form.children = T.children.map form :=
  T.children_relabel _

theorem subtrees_form (T : Tree α ν) : T.form.subtrees = T.subtrees.map form :=
  T.subtrees_relabel _

/-- The tags of all subtrees, children before their parent. -/
def postorder : Tree α ν → List α :=
  fold fun T below => below.flatten ++ [T.tag]

theorem postorder_eq (T : Tree α ν) :
    T.postorder = T.children.flatMap postorder ++ [T.tag] := by
  unfold postorder
  rw [fold_eq, List.flatMap_def]

theorem postorder_perm (T : Tree α ν) : T.postorder.Perm T.ids := by
  induction T using induction with
  | step T ih =>
    rw [postorder_eq, ids_eq]
    exact (List.perm_append_singleton _ _).trans ((List.Perm.flatMap_left _ ih).cons _)

theorem postorder_relabel (h : α → β) (T : Tree α ν) :
    (T.relabel h).postorder = T.postorder.map h := by
  induction T using induction with
  | step T ih =>
    rw [postorder_eq, postorder_eq T, children_relabel, tag_relabel, List.map_append,
      List.map_flatMap, List.flatMap_map, List.flatMap_congr ih]
    rfl

theorem length_postorder_of_form {T : Tree α ν} {U : Tree β ν} (same : T.form = U.form) :
    T.postorder.length = U.postorder.length := by
  have length {δ : Type} (T : Tree δ ν) : T.postorder.length = T.form.subtrees.length := by
    rw [T.postorder_perm.length_eq, ids, subtrees_form, List.length_map, List.length_map]
  rw [length, length, same]

theorem relabel_parts_of_postorder {f : α → γ} {g : β → γ} {list : List (Part α ν)}
    {list' : List (Part β ν)}
    (each : ∀ T, some T ∈ list → ∀ U : Tree β ν, T.form = U.form →
      T.postorder.map f = U.postorder.map g → T.relabel f = U.relabel g)
    (alike : list.map (Option.map form) = list'.map (Option.map form))
    (same : ((list.filterMap id).flatMap postorder).map f =
      ((list'.filterMap id).flatMap postorder).map g) :
    list.map (Option.map (relabel f)) = list'.map (Option.map (relabel g)) := by
  induction list generalizing list' with
  | nil =>
    cases list' with
    | nil => rfl
    | cons => cases alike
  | cons part rest ih =>
    cases list' with
    | nil => cases alike
    | cons part' rest' =>
      obtain ⟨first, later⟩ := List.cons.inj alike
      have others := ih (fun T mem => each T (List.mem_cons_of_mem part mem)) later
      cases part with
      | none =>
        cases part' with
        | none => exact congrArg (none :: ·) (others same)
        | some U => cases first
      | some T =>
        cases part' with
        | none => cases first
        | some U =>
          have forms : T.form = U.form := Option.some.inj first
          have lengths : (T.postorder.map f).length = (U.postorder.map g).length := by
            rw [List.length_map, List.length_map, length_postorder_of_form forms]
          have split : T.postorder.map f ++ ((rest.filterMap id).flatMap postorder).map f =
              U.postorder.map g ++ ((rest'.filterMap id).flatMap postorder).map g := by
            rw [← List.map_append, ← List.map_append]
            exact same
          obtain ⟨own, below⟩ := List.append_inj split lengths
          rw [List.map_cons, List.map_cons, others below, Option.map_some, Option.map_some,
            each T List.mem_cons_self U forms own]

/-- Trees of one form whose tags come to the same in postorder come to the same. -/
theorem relabel_eq_of_postorder {f : α → γ} {g : β → γ} {T : Tree α ν} {U : Tree β ν}
    (alike : T.form = U.form) (same : T.postorder.map f = U.postorder.map g) :
    T.relabel f = U.relabel g := by
  induction T using induction generalizing U with
  | step T ih =>
    have kinds : T.kind.map (Option.map form) (List.map (Option.map form)) =
        U.kind.map (Option.map form) (List.map (Option.map form)) := by
      rw [← kind_form, ← kind_form, alike]
    have slots : T.kind.slots.map (Option.map form) = U.kind.slots.map (Option.map form) := by
      rw [← Kind.slots_map, ← Kind.slots_map, kinds]
    rw [postorder_eq, postorder_eq U, List.map_append, List.map_append] at same
    obtain ⟨below, top⟩ := List.append_inj' same rfl
    have tags : f T.tag = g U.tag := (List.cons.inj top).1
    have parts := relabel_parts_of_postorder
      (fun c mem U => ih c (mem_children_iff.mpr mem)) slots below
    rw [relabel_eq, relabel_eq g, Kind.map_eq_of_slots kinds parts, tags]

end Tree

end BigLower
