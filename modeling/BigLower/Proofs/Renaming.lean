import BigLower.Proofs.Trees
import BigLower.Syntax.Layout

/-! # Other names

A name is a number that stands for a text, and which number does is a matter of
chance. Here all names of a kind or a tree are changed at once. The text of a tree
sees nothing of the names but their texts, and nothing of the tags, so it stays the same.
-/

namespace BigLower

namespace Kind

variable {ν μ ξ σ ρ : Type}

def rename (g : ν → μ) : Kind ν σ ρ → Kind μ σ ρ
  | program body => .program body
  | importDefault binder source => .importDefault (g binder) (g source)
  | varDecl keyword declarators => .varDecl keyword declarators
  | declarator name value => .declarator (g name) value
  | function name params body => .function (g name) params body
  | param name => .param (g name)
  | ret value => .ret value
  | cond test yes no => .cond test yes no
  | block body => .block body
  | exprStmt expr => .exprStmt expr
  | bigInt digits => .bigInt (g digits)
  | number digits => .number (g digits)
  | str content => .str (g content)
  | bool value => .bool value
  | null => .null
  | ident name => .ident (g name)
  | member object property => .member object (g property)
  | call callee args => .call callee args
  | binary op left right => .binary op left right
  | unary op operand => .unary op operand
  | assign op target value => .assign op target value
  | array elements => .array elements
  | arrow params body => .arrow params body

def names : Kind ν σ ρ → List ν
  | importDefault binder source => [binder, source]
  | declarator name _ | function name _ _ | param name | bigInt name | number name | str name
  | ident name | member _ name => [name]
  | _ => []

theorem rename_congr {g g' : ν → μ} {k : Kind ν σ ρ} (same : ∀ name ∈ k.names, g name = g' name) :
    k.rename g = k.rename g' := by
  cases k <;> simp_all [rename, names]

@[simp] theorem rename_id (k : Kind ν σ ρ) : k.rename id = k := by
  cases k <;> rfl

@[simp] theorem rename_rename (f : ν → μ) (g : μ → ξ) (k : Kind ν σ ρ) :
    (k.rename f).rename g = k.rename (g ∘ f) := by
  cases k <;> rfl

theorem rename_map {σ' ρ' : Type} (f : σ → σ') (g : ρ → ρ') (h : ν → μ) (k : Kind ν σ ρ) :
    (k.map f g).rename h = (k.rename h).map f g := by
  cases k <;> rfl

@[simp] theorem parts_rename (g : ν → μ) (k : Kind ν σ ρ) : (k.rename g).parts = k.parts := by
  cases k <;> rfl

@[simp] theorem slots_rename (g : ν → μ) (k : Kind ν σ (List σ)) : (k.rename g).slots = k.slots := by
  cases k <;> rfl

end Kind

namespace Tree

variable {α ν μ : Type}

mutual

def rename (g : ν → μ) : Tree α ν → Tree α μ
  | .node tag kind => .node tag (renameKind g kind)

def renameKind (g : ν → μ) :
    Kind ν (Part α ν) (List (Part α ν)) → Kind μ (Part α μ) (List (Part α μ))
  | .program body => .program (renameList g body)
  | .importDefault binder source => .importDefault (g binder) (g source)
  | .varDecl keyword declarators => .varDecl keyword (renameList g declarators)
  | .declarator name value => .declarator (g name) (renamePart g value)
  | .function name params body => .function (g name) (renameList g params) (renamePart g body)
  | .param name => .param (g name)
  | .ret value => .ret (renamePart g value)
  | .cond test yes no => .cond (renamePart g test) (renamePart g yes) (renamePart g no)
  | .block body => .block (renameList g body)
  | .exprStmt expr => .exprStmt (renamePart g expr)
  | .bigInt digits => .bigInt (g digits)
  | .number digits => .number (g digits)
  | .str content => .str (g content)
  | .bool value => .bool value
  | .null => .null
  | .ident name => .ident (g name)
  | .member object property => .member (renamePart g object) (g property)
  | .call callee args => .call (renamePart g callee) (renameList g args)
  | .binary op left right => .binary op (renamePart g left) (renamePart g right)
  | .unary op operand => .unary op (renamePart g operand)
  | .assign op target value => .assign op (renamePart g target) (renamePart g value)
  | .array elements => .array (renameList g elements)
  | .arrow params body => .arrow (renameList g params) (renamePart g body)

def renamePart (g : ν → μ) : Part α ν → Part α μ
  | none => none
  | some tree => some (rename g tree)

def renameList (g : ν → μ) : List (Part α ν) → List (Part α μ)
  | [] => []
  | part :: rest => renamePart g part :: renameList g rest

end

theorem renamePart_eq (g : ν → μ) (part : Part α ν) : renamePart g part = part.map (rename g) := by
  cases part <;> rfl

theorem renameList_eq (g : ν → μ) (list : List (Part α ν)) :
    renameList g list = list.map (Option.map (rename g)) := by
  induction list with
  | nil => rfl
  | cons part rest ih => rw [renameList, renamePart_eq, ih, List.map_cons]

theorem renameKind_eq (g : ν → μ) (kind : Kind ν (Part α ν) (List (Part α ν))) :
    renameKind g kind =
      (kind.rename g).map (Option.map (rename g)) (List.map (Option.map (rename g))) := by
  cases kind <;> simp [renameKind, renamePart_eq, renameList_eq, Kind.rename, Kind.map]

theorem rename_eq (g : ν → μ) (T : Tree α ν) :
    T.rename g = .node T.tag
      ((T.kind.rename g).map (Option.map (rename g)) (List.map (Option.map (rename g)))) := by
  obtain ⟨tag, kind⟩ := T
  rw [rename, renameKind_eq]
  rfl

theorem rename_congr {g g' : ν → μ} {T : Tree α ν}
    (same : ∀ u ∈ T.subtrees, ∀ name ∈ u.kind.names, g name = g' name) :
    T.rename g = T.rename g' := by
  induction T using induction with
  | step T ih =>
    have below : ∀ part ∈ (T.kind.rename g).slots,
        Option.map (rename g) part = Option.map (rename g') part := by
      intro part mem
      rw [Kind.slots_rename] at mem
      cases part with
      | none => rfl
      | some c =>
        have child : c ∈ T.children := mem_children_iff.mpr mem
        exact congrArg some (ih c child fun u inside => same u (mem_subtrees_of_child child inside))
    rw [rename_eq, rename_eq g', Kind.map_congr below,
      Kind.rename_congr (same T T.self_mem_subtrees)]

/-! ## Texts -/

section Texts

variable {β : Type} {g : Tree α ν → Tree β μ} {h : ν → μ} {text : μ → String} {depth : Nat}
  {list : List (Part α ν)}

theorem renderItems_map (same : ∀ part ∈ list, renderPart text depth looseLevel (part.map g) =
    renderPart (text ∘ h) depth looseLevel part) (written gap : String) :
    renderItems text depth written gap (list.map (Option.map g)) =
      renderItems (text ∘ h) depth written gap list := by
  induction list generalizing written gap with
  | nil => rfl
  | cons part rest ih =>
    rw [List.map_cons, renderItems, renderItems, same part List.mem_cons_self]
    exact ih (fun other mem => same other (List.mem_cons_of_mem part mem)) _ _

theorem renderLines_map (same : ∀ part ∈ list, renderPart text depth looseLevel (part.map g) =
    renderPart (text ∘ h) depth looseLevel part) (written : String) :
    renderLines text depth written (list.map (Option.map g)) =
      renderLines (text ∘ h) depth written list := by
  induction list generalizing written with
  | nil => rfl
  | cons part rest ih =>
    rw [List.map_cons, renderLines, renderLines, same part List.mem_cons_self]
    exact ih (fun other mem => same other (List.mem_cons_of_mem part mem)) _

/-- The map keeps the shape of trees: names are changed, and tags perhaps, and nothing else. -/
def KeepsShape (g : Tree α ν → Tree β μ) (h : ν → μ) : Prop :=
  ∀ T, (g T).kind = (T.kind.rename h).map (Option.map g) (List.map (Option.map g))

theorem KeepsShape.unaryGap (keeps : KeepsShape g h) (op : UnaryOp) (part : Part α ν) :
    unaryGap op (part.map g) = unaryGap op part := by
  cases part with
  | none => rfl
  | some T =>
    obtain ⟨x, k⟩ := T
    have shape : (g (.node x k)).kind =
        (k.rename h).map (Option.map g) (List.map (Option.map g)) := keeps (.node x k)
    cases image : g (.node x k) with
    | node y k' =>
      have same : k' = (k.rename h).map (Option.map g) (List.map (Option.map g)) := by
        rw [← shape, image]
        rfl
      rw [Option.map_some, image, same]
      cases k <;> rfl

/-- A tree of the same shape has the text by the texts of the other names. -/
theorem KeepsShape.render (keeps : KeepsShape g h) (text : μ → String) (depth limit : Nat)
    (T : Tree α ν) :
    (g T).render text depth limit = T.render (text ∘ h) depth limit := by
  induction T using induction generalizing depth limit with
  | step T ih =>
    have slot : ∀ part ∈ T.kind.slots, ∀ depth limit,
        renderPart text depth limit (part.map g) = renderPart (text ∘ h) depth limit part := by
      intro part mem depth limit
      cases part with
      | none => rfl
      | some c => exact ih c (mem_children_iff.mpr mem) depth limit
    have optional : ∀ part ∈ T.kind.slots, ∀ lead,
        renderAfter text depth lead (part.map g) = renderAfter (text ∘ h) depth lead part := by
      intro part mem lead
      cases part with
      | none => rfl
      | some c => exact congrArg (lead ++ ·) (slot (some c) mem depth looseLevel)
    have items {list : List (Part α ν)} (inside : ∀ part ∈ list, part ∈ T.kind.slots) :
        renderItems text depth "" "" (list.map (Option.map g)) =
          renderItems (text ∘ h) depth "" "" list :=
      renderItems_map (fun part mem => slot part (inside part mem) _ _) _ _
    have lines {list : List (Part α ν)} (depth : Nat)
        (inside : ∀ part ∈ list, part ∈ T.kind.slots) :
        renderLines text depth "" (list.map (Option.map g)) =
          renderLines (text ∘ h) depth "" list :=
      renderLines_map (fun part mem => slot part (inside part mem) _ _) _
    have shape := keeps T
    have level : level (g T).kind = level T.kind := by
      rw [shape]
      cases T.kind <;> rfl
    have same : renderKind text depth (g T).kind = renderKind (text ∘ h) depth T.kind := by
      rw [shape]
      cases kind : T.kind <;> rw [kind] at slot optional items lines <;>
        simp_all [Kind.slots, Kind.parts, Kind.rename, Kind.map, renderKind, keeps.unaryGap]
    have bare {γ ξ : Type} (U : Tree γ ξ) (text : ξ → String) : U.render text depth limit =
        parenthesize (limit < Tree.level U.kind) (renderKind text depth U.kind) := by
      cases U
      rfl
    rw [bare, bare, level, same]

end Texts

/-- The text of a tree with other names is its text by the texts of those. -/
theorem render_rename (g : ν → μ) (text : μ → String) (depth limit : Nat) (T : Tree α ν) :
    (T.rename g).render text depth limit = T.render (text ∘ g) depth limit := by
  have keeps : KeepsShape (fun T : Tree α ν => T.rename g) g := fun T => by
    dsimp only
    rw [rename_eq]
    rfl
  exact keeps.render text depth limit T

/-- The text of a tree does not tell its tags. -/
theorem render_relabel {β : Type} (f : α → β) (text : ν → String) (depth limit : Nat)
    (T : Tree α ν) : (T.relabel f).render text depth limit = T.render text depth limit := by
  have keeps : KeepsShape (fun T : Tree α ν => T.relabel f) id := fun T => by
    dsimp only
    rw [relabel_eq, Kind.rename_id]
    rfl
  exact keeps.render text depth limit T

theorem unitText_rename (g : ν → μ) (text : μ → String) (T : Tree α ν) :
    (T.rename g).unitText text = T.unitText (text ∘ g) := by
  unfold unitText
  rw [render_rename]

/-- A tree has one text by all tables that know its names alike. -/
theorem render_congr {text text' : ν → String} {T : Tree α ν}
    (same : ∀ u ∈ T.subtrees, ∀ name ∈ u.kind.names, text name = text' name) (depth limit : Nat) :
    T.render text depth limit = T.render text' depth limit := by
  calc T.render text depth limit
    _ = (T.rename text).render id depth limit := (render_rename text id depth limit T).symm
    _ = (T.rename text').render id depth limit := by rw [rename_congr same]
    _ = T.render text' depth limit := render_rename text' id depth limit T

def NamedIn {α : Type} (T : Tree α Name) (t : Names) : Prop :=
  ∀ u ∈ T.subtrees, ∀ name ∈ u.kind.names, name < t.size

end Tree

end BigLower
