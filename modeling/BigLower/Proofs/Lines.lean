import BigLower.Proofs.Printing
import BigLower.Proofs.Quoting
import Mathlib.Algebra.BigOperators.Group.List.Basic
import Mathlib.Algebra.GroupWithZero.Nat

/-! # Lines

A string literal can be read back from the front of any text, and it is written without
control characters. So it ends no line: a text has a line for each statement of its
programs and blocks and one for each block that is opened, whatever the strings in it are.
-/

namespace BigLower

namespace Quoted

theorem isControl_hexDigit {n : Nat} (small : n < 16) : isControl (hexDigit n) = false := by
  have all : ∀ n : Fin 16, isControl (hexDigit n) = false := by decide
  exact all ⟨n, small⟩

/-- Control characters are escaped, and no escape has one. -/
theorem isControl_of_mem_escape {c d : Char} (mem : d ∈ escape c) : isControl d = false := by
  have digit (n : Nat) : isControl (hexDigit (n % 16)) = false :=
    isControl_hexDigit (Nat.mod_lt n (by decide))
  have short {cs : List Char} (clean : cs.all (fun d => !isControl d) = true) (mem : d ∈ cs) :
      isControl d = false := by
    simpa using List.all_eq_true.mp clean d mem
  unfold escape at mem
  iterate 5
    split at mem
    · exact short (by decide) mem
  split at mem
  · refine short ?_ mem
    simp only [hexFour, List.all_cons, List.all_nil, digit]
    decide
  · rename_i printable
    cases List.mem_singleton.mp mem
    simpa using printable

theorem isControl_of_mem_encode {cs : List Char} {d : Char} (mem : d ∈ encode cs) :
    isControl d = false := by
  have quote : isControl '"' = false := by decide
  unfold encode at mem
  rcases List.mem_append.mp mem with mem | mem
  · rcases List.mem_cons.mp mem with rfl | mem
    · exact quote
    · obtain ⟨c, -, inside⟩ := List.mem_flatMap.mp mem
      exact isControl_of_mem_escape inside
  · cases List.mem_singleton.mp mem
    exact quote

end Quoted

/-! ## Line ends -/

def newlines (text : String) : Nat := text.toList.count '\n'

@[simp] theorem newlines_append (a b : String) : newlines (a ++ b) = newlines a + newlines b := by
  simp [newlines]

theorem newlines_eq_zero {text : String} (inside : '\n' ∉ text.toList) : newlines text = 0 :=
  List.count_eq_zero.mpr inside

theorem newlines_literal (text : String) : newlines (Quoted.literal text) = 0 := by
  apply newlines_eq_zero
  rw [Quoted.literal, String.toList_ofList]
  intro mem
  have control : Quoted.isControl '\n' = true := by decide
  cases (Quoted.isControl_of_mem_encode mem).symm.trans control

theorem newlines_margin (depth : Nat) : newlines (Tree.margin depth) = 0 := by
  apply newlines_eq_zero
  simp [Tree.margin]

/-- The texts that the layout puts between names and parts. -/
theorem newlines_fixed : newlines "" = 0 ∧ newlines " " = 0 ∧ newlines "." = 0 ∧ newlines ";" = 0 ∧
    newlines "(" = 0 ∧ newlines ")" = 0 ∧ newlines ") " = 0 ∧ newlines "[" = 0 ∧ newlines "]" = 0 ∧
    newlines " = " = 0 ∧ newlines ") => " = 0 ∧ newlines "n" = 0 ∧ newlines "true" = 0 ∧
    newlines "false" = 0 ∧ newlines "null" = 0 ∧ newlines "import " = 0 ∧ newlines " from " = 0 ∧
    newlines "function " = 0 ∧ newlines "return" = 0 ∧ newlines "if (" = 0 ∧
    newlines " else " = 0 ∧ newlines "\x7b\x7d" = 0 ∧ newlines "\x7b\n" = 1 ∧
    newlines "\x7d" = 0 := by
  decide

theorem newlines_binarySymbol (op : BinaryOp) : newlines op.symbol = 0 := by
  cases op <;> decide

theorem newlines_unarySymbol (op : UnaryOp) : newlines op.symbol = 0 := by
  cases op <;> decide

theorem newlines_assignSymbol (op : AssignOp) : newlines op.symbol = 0 := by
  cases op <;> decide

theorem newlines_keyword (keyword : DeclKeyword) : newlines keyword.text = 0 := by
  cases keyword <;> decide

namespace Kind

variable {ν σ ρ : Type}

/-- The names that are written as they are and not as the content of a literal. -/
def bareNames : Kind ν σ ρ → List ν
  | importDefault binder _ => [binder]
  | str _ => []
  | k => k.names

/-- How many lines are ended for a kind itself: one for a statement, and one where a block opens. -/
def lineEnds : Kind ν σ (List σ) → Nat
  | program body => body.length
  | block body => if body.isEmpty then 0 else body.length + 1
  | _ => 0

end Kind

namespace Tree

variable {α ν : Type} {text : ν → String}

def lineEnds (T : Tree α ν) : Nat := (T.subtrees.map fun u => u.kind.lineEnds).sum

def partLineEnds (part : Part α ν) : Nat := part.elim 0 lineEnds

theorem lineEnds_eq (T : Tree α ν) :
    T.lineEnds = T.kind.lineEnds + (T.kind.slots.map partLineEnds).sum := by
  have below (list : List (Part α ν)) :
      (((list.filterMap id).flatMap subtrees).map fun u => u.kind.lineEnds).sum =
        (list.map partLineEnds).sum := by
    induction list with
    | nil => rfl
    | cons part rest ih =>
      cases part with
      | none => simpa [partLineEnds] using ih
      | some c => simpa [partLineEnds, lineEnds] using ih
  rw [lineEnds, subtrees_eq, List.map_cons, List.sum_cons]
  exact congrArg (T.kind.lineEnds + ·) (below T.kind.slots)

section Parts

variable {depth : Nat} {list : List (Part α ν)} (each : ∀ part ∈ list,
  newlines (renderPart text depth looseLevel part) = partLineEnds part)

include each

theorem newlines_renderItems (written : String) {gap : String} (inline : newlines gap = 0) :
    newlines (renderItems text depth written gap list) =
      newlines written + (list.map partLineEnds).sum := by
  induction list generalizing written gap with
  | nil => simp [renderItems]
  | cons part rest ih =>
    rw [renderItems, ih (fun other mem => each other (List.mem_cons_of_mem part mem)) _ (by decide),
      newlines_append, newlines_append, inline, each part List.mem_cons_self, List.map_cons,
      List.sum_cons]
    omega

theorem newlines_renderLines (written : String) :
    newlines (renderLines text depth written list) =
      newlines written + (list.length + (list.map partLineEnds).sum) := by
  induction list generalizing written with
  | nil => simp [renderLines]
  | cons part rest ih =>
    have one : newlines "\n" = 1 := by decide
    rw [renderLines, ih fun other mem => each other (List.mem_cons_of_mem part mem),
      newlines_append, newlines_append, newlines_append, newlines_margin, one,
      each part List.mem_cons_self, List.map_cons, List.sum_cons, List.length_cons]
    omega

end Parts

theorem newlines_parenthesize (asked : Bool) (inner : String) :
    newlines (parenthesize asked inner) = newlines inner := by
  have opening : newlines "(" = 0 := by decide
  have closing : newlines ")" = 0 := by decide
  cases asked with
  | false => rfl
  | true => simp [parenthesize, opening, closing]

theorem newlines_unaryGap (op : UnaryOp) (operand : Part α ν) :
    newlines (unaryGap op operand) = 0 := by
  have blank (asked : Bool) : newlines (if asked then " " else "") = 0 := by
    cases asked <;> decide
  unfold unaryGap
  split <;> exact blank _

section Kinds

attribute [local simp] Kind.slots Kind.parts Kind.names Kind.bareNames Kind.lineEnds renderKind
  newlines_fixed newlines_literal newlines_binarySymbol newlines_unarySymbol newlines_assignSymbol
  newlines_keyword newlines_unaryGap

theorem newlines_renderKind {k : Kind ν (Part α ν) (List (Part α ν))} {depth : Nat}
    (bare : ∀ name ∈ k.bareNames, newlines (text name) = 0)
    (slot : ∀ part ∈ k.slots, ∀ depth limit,
      newlines (renderPart text depth limit part) = partLineEnds part) :
    newlines (renderKind text depth k) = k.lineEnds + (k.slots.map partLineEnds).sum := by
  have optional (lead : String) (inline : newlines lead = 0) (part : Part α ν)
      (mem : part ∈ k.slots) : newlines (renderAfter text depth lead part) = partLineEnds part := by
    cases part with
    | none => rfl
    | some c =>
      rw [renderAfter, newlines_append, inline, Nat.zero_add]
      exact slot (some c) mem depth looseLevel
  have items (list : List (Part α ν)) (inside : ∀ part ∈ list, part ∈ k.slots) :
      newlines (renderItems text depth "" "" list) = (list.map partLineEnds).sum := by
    rw [newlines_renderItems (fun part mem => slot part (inside part mem) _ _) "" rfl]
    exact Nat.zero_add _
  have lines (depth : Nat) (list : List (Part α ν)) (inside : ∀ part ∈ list, part ∈ k.slots) :
      newlines (renderLines text depth "" list) = list.length + (list.map partLineEnds).sum := by
    rw [newlines_renderLines (fun part mem => slot part (inside part mem) _ _) ""]
    exact Nat.zero_add _
  cases k with
  | bool value => cases value <;> simp
  | block body =>
    have inside := lines (depth + 1) body (by simp)
    cases body with
    | nil => simp
    | cons first others => simp +arith [inside, newlines_margin]
  | _ => simp_all [Nat.add_assoc]

end Kinds

/-- The text of a tree has the line ends of its layout, and its strings add none. -/
theorem newlines_render (T : Tree α ν)
    (bare : ∀ u ∈ T.subtrees, ∀ name ∈ u.kind.bareNames, '\n' ∉ (text name).toList)
    (depth limit : Nat) : newlines (T.render text depth limit) = T.lineEnds := by
  induction T using induction generalizing depth limit with
  | step T ih =>
    have slot : ∀ part ∈ T.kind.slots, ∀ depth limit,
        newlines (renderPart text depth limit part) = partLineEnds part := by
      intro part mem depth limit
      cases part with
      | none => rfl
      | some c =>
        have child : c ∈ T.children := mem_children_iff.mpr mem
        exact ih c child (fun u below => bare u (mem_subtrees_of_child child below)) depth limit
    have own : ∀ name ∈ T.kind.bareNames, newlines (text name) = 0 :=
      fun name mem => newlines_eq_zero (bare T T.self_mem_subtrees name mem)
    obtain ⟨x, k⟩ := T
    rw [render, newlines_parenthesize, lineEnds_eq]
    exact newlines_renderKind own slot

end Tree

/-! ## Literals in a text -/

namespace Quoted

theorem getLast?_literal (content : String) : (literal content).toList.getLast? = some '"' := by
  rw [literal, String.toList_ofList, encode]
  exact List.getLast?_concat

theorem print_str {s : Store} {x : Nat} {name : Name} (own : s.kind (some x) = .ok (.str name))
    (text : Name → String) : s.print text (some x) = .ok (literal (text name) ++ "\n") := by
  have read : s.wholeTree x = .ok (.node x (.str name)) := bind_of_eq own
  have line : Tree.endLine (literal (text name)) = literal (text name) ++ "\n" :=
    Tree.endLine_eq_append (getLast?_literal _) (by decide)
  show (s.wholeTree x >>= fun T => pure (T.unitText text)) = _
  rw [bind_of_eq read]
  exact congrArg Except.ok line

/--
The literal of any content is read back from the front of any text, and what follows it
is left. It has no control character. So it stands on one line, and a text has the lines
of its layout, if only its names have no newline.
-/
theorem literal_delimited (content : String) :
    (∀ rest : String, decode (literal content ++ rest).toList =
      some (content.toList, rest.toList)) ∧
    (∀ c ∈ (literal content).toList, isControl c = false) ∧
    (∀ (s : Store) (x : Nat) (name : Name) (text : Name → String),
      s.kind (some x) = .ok (.str name) → text name = content →
        s.print text (some x) = .ok (literal content ++ "\n")) ∧
    ∀ {α ν : Type} (T : Tree α ν) (text : ν → String),
      (∀ u ∈ T.subtrees, ∀ name ∈ u.kind.bareNames, '\n' ∉ (text name).toList) →
        ∀ depth limit, newlines (T.render text depth limit) = T.lineEnds := by
  refine ⟨fun rest => ?_, fun c mem => ?_, ?_, fun T text bare => Tree.newlines_render T bare⟩
  · rw [String.toList_append, literal, String.toList_ofList]
    exact decode_encode_append content.toList rest.toList
  · rw [literal, String.toList_ofList] at mem
    exact isControl_of_mem_encode mem
  · rintro s x name text own rfl
    exact print_str own text

end Quoted

namespace Sample

/-- A name, a text of two lines, and one of a quote, a backslash, a control character and a `d`. -/
def quotedNames : Names :=
  ["a", "b\nc", "\"\\\x07d"].foldl (fun t text => (t.intern text).2) .fresh

/-- The program that imports `a` from the text of two lines, and has a block with the other text. -/
def quotedTree : Tree Nat Name :=
  .node 4 (.program [
    some (.node 0 (.importDefault 1 2)),
    some (.node 3 (.block [some (.node 2 (.exprStmt (some (.node 1 (.str 3)))))]))])

def quotedStore : Store where
  nodes := #[⟨.str 3, ⟨0, 1⟩⟩]

end Sample

/-- The `d` behind the control character is not read as one more digit of its escape. -/
theorem Quoted.literal_delimited_sample :
    decode (literal "\"\\\x07d" ++ "d\";").toList = some ("\"\\\x07d".toList, "d\";".toList) ∧
    isControl 'u' = false ∧
    Sample.quotedStore.print Sample.quotedNames.text (some 0) = .ok "\"\\\"\\\\\\u0007d\"\n" ∧
    newlines (Sample.quotedTree.render Sample.quotedNames.text 0 Tree.looseLevel) = 4 := by
  obtain ⟨decoded, clean, printed, lines⟩ := literal_delimited "\"\\\x07d"
  exact ⟨decoded "d\";", clean 'u' (by decide +kernel),
    printed Sample.quotedStore 0 3 Sample.quotedNames.text rfl (by decide +kernel),
    lines Sample.quotedTree Sample.quotedNames.text (by decide +kernel) 0 Tree.looseLevel⟩

end BigLower
