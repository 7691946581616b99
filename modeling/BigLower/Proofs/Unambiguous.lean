import BigLower.Names.Lemmas
import BigLower.Proofs.Parsing
import BigLower.Proofs.Printing

/-! # Texts of expressions

The text of an expression can be read back, whatever follows it. So two
expressions with the same text are the same, but for the tags of their nodes.
-/

namespace BigLower

namespace Tree

open Reader

variable {α ν : Type} {text : ν → String}

/-! ## Expressions -/

/-- A tree that is an expression without gaps, whose names and numbers have proper texts. -/
inductive IsExpr (text : ν → String) : Tree α ν → Prop where
  | ident {x : α} {name : ν} : isIdentifier (text name) = true → IsExpr text (.node x (.ident name))
  | number {x : α} {digits : ν} : isNumeral (text digits) = true →
      IsExpr text (.node x (.number digits))
  | bigInt {x : α} {digits : ν} : isDigits (text digits) = true →
      IsExpr text (.node x (.bigInt digits))
  | str (x : α) (content : ν) : IsExpr text (.node x (.str content))
  | bool (x : α) (value : Bool) : IsExpr text (.node x (.bool value))
  | null (x : α) : IsExpr text (.node x .null)
  | member {x : α} {object : Tree α ν} {property : ν} : IsExpr text object →
      isIdentifier (text property) = true → IsExpr text (.node x (.member (some object) property))
  | call {x : α} {callee : Tree α ν} {args : List (Tree α ν)} : IsExpr text callee →
      (∀ c ∈ args, IsExpr text c) → IsExpr text (.node x (.call (some callee) (args.map some)))
  | binary {x : α} {op : BinaryOp} {left right : Tree α ν} : IsExpr text left → IsExpr text right →
      IsExpr text (.node x (.binary op (some left) (some right)))
  | unary {x : α} {op : UnaryOp} {operand : Tree α ν} : IsExpr text operand →
      IsExpr text (.node x (.unary op (some operand)))
  | assign {x : α} {op : AssignOp} {target value : Tree α ν} : IsExpr text target →
      IsExpr text value → IsExpr text (.node x (.assign op (some target) (some value)))
  | array {x : α} {elements : List (Tree α ν)} : (∀ c ∈ elements, IsExpr text c) →
      IsExpr text (.node x (.array (elements.map some)))
  | arrow {x : α} {params : List (α × ν)} {body : Tree α ν} :
      (∀ p ∈ params, isIdentifier (text p.2) = true) → IsExpr text body →
      IsExpr text (.node x (.arrow (params.map fun p => some (.node p.1 (.param p.2))) (some body)))

def plain (text : ν → String) (T : Tree α ν) : Plain := (T.rename text).form

theorem plain_eq (text : ν → String) (x : α) (k : Kind ν (Part α ν) (List (Part α ν))) :
    plain text (.node x k) = .node () ((k.rename text).map (Option.map (plain text))
      (List.map (Option.map (plain text)))) := by
  unfold plain form
  rw [rename_eq, relabel_eq]
  cases k <;> simp [Tree.kind, Kind.rename, Kind.map, Function.comp_def]

theorem unitText_plain (text : ν → String) (T : Tree α ν) :
    (T.plain text).unitText id = T.unitText text := by
  unfold unitText plain form
  rw [render_relabel, render_rename]
  rfl

/-- If names can be told from their texts, so can the tree. -/
theorem rename_plain {back : String → ν} {T : Tree α ν}
    (inverse : ∀ u ∈ T.subtrees, ∀ name ∈ u.kind.names, back (text name) = name) :
    (T.plain text).rename back = T.form := by
  induction T using induction with
  | step T ih =>
    obtain ⟨x, k⟩ := T
    have below : ∀ part ∈ k.slots,
        (Option.map (rename back) ∘ Option.map (plain text)) part = Option.map form part := by
      intro part mem
      cases part with
      | none => rfl
      | some c =>
        have child : c ∈ (node x k).children := mem_children_iff.mpr mem
        refine congrArg some (ih c child fun u inside => ?_)
        exact inverse u (mem_subtrees_of_child child inside)
    have names : (k.rename text).rename back = k := by
      have same : k.rename (back ∘ text) = k.rename id :=
        Kind.rename_congr (inverse (node x k) (self_mem_subtrees _))
      rw [Kind.rename_rename, same, Kind.rename_id]
    calc (plain text (node x k)).rename back
      _ = .node () (k.map (Option.map (rename back) ∘ Option.map (plain text))
          (List.map (Option.map (rename back) ∘ Option.map (plain text)))) := by
        rw [plain_eq, rename_eq]
        simp only [Tree.tag, Tree.kind, Kind.rename_map, Kind.map_map, names, List.map_comp_map]
      _ = form (node x k) := by
        rw [Kind.map_congr below, form, relabel_eq]
        rfl

/-- Where names are from one table, trees with the same texts have the same names. -/
theorem form_eq_of_plain {names : Names} (consistent : names.Consistent) {T U : Tree α Name}
    (named : T.NamedIn names) (named' : U.NamedIn names)
    (same : T.plain names.text = U.plain names.text) : T.form = U.form := by
  have back {V : Tree α Name} (named : V.NamedIn names) :
      (V.plain names.text).rename (fun word => (names.find? word).getD 0) = V.form := by
    refine rename_plain fun u mem name inside => ?_
    rw [consistent.find?_text (named u mem name inside)]
    rfl
  rw [← back named, same, back named']

/-! ## Texts as lists of characters -/

theorem toList_renderItems (text : ν → String) (depth : Nat) (list : List (Part α ν)) :
    (renderItems text depth "" "" list).toList =
      commas (list.map fun part => (renderPart text depth looseLevel part).toList) := by
  have behind (written : String) (list : List (Part α ν)) :
      (renderItems text depth written ", " list).toList = written.toList ++
        list.flatMap fun part => ',' :: ' ' :: (renderPart text depth looseLevel part).toList := by
    induction list generalizing written with
    | nil => simp [renderItems]
    | cons part rest ih => simp [renderItems, ih]
  cases list with
  | nil => rfl
  | cons part rest => simp [renderItems, behind, commas, List.flatMap_map]

theorem toList_parenthesize (asked : Bool) (inner : String) :
    (parenthesize asked inner).toList =
      if asked then '(' :: (inner.toList ++ [')']) else inner.toList := by
  unfold parenthesize
  split <;> simp

section Starts

variable {depth : Nat} {T : Tree α ν}

def Opens (cs : List Char) : Prop :=
  ∃ c, cs.head? = some c ∧ c ∉ [' ', ')', ']']

theorem Opens.append {cs : List Char} (h : Opens cs) (rest : List Char) : Opens (cs ++ rest) := by
  obtain ⟨c, first, other⟩ := h
  refine ⟨c, ?_, other⟩
  rw [List.head?_append, first]
  rfl

theorem Opens.ne (h : Opens cs) {c : Char} (mem : c ∈ [' ', ')', ']']) : cs.head? ≠ some c := by
  obtain ⟨d, first, other⟩ := h
  rw [first]
  rintro ⟨⟩
  exact other mem

theorem opens_of_word {w : List Char} (filled : w ≠ []) (all : ∀ c ∈ w, isWordChar c = true) :
    Opens w := by
  cases w with
  | nil => exact (filled rfl).elim
  | cons c w =>
    refine ⟨c, rfl, fun mem => ?_⟩
    have others : [' ', ')', ']'].all (!isWordChar ·) = true := by decide
    have other := List.all_eq_true.mp others c mem
    simp [all c List.mem_cons_self] at other

theorem isWord_of_isIdentifier {s : String} (h : isIdentifier s = true) : isWord s = true :=
  (Bool.and_eq_true_iff.mp h).1

theorem toList_ne_nil_of_isWord {s : String} (h : isWord s = true) : s.toList ≠ [] := by
  intro empty
  simp [isWord, empty] at h

theorem opens_render {place : Nat} (h : Opens (renderKind text depth T.kind).toList) :
    Opens (render text depth place T).toList := by
  obtain ⟨x, k⟩ := T
  rw [render, toList_parenthesize]
  split
  · exact ⟨'(', rfl, by decide⟩
  · exact h

theorem IsExpr.opens (h : IsExpr text T) (depth : Nat) :
    Opens (renderKind text depth T.kind).toList := by
  induction h with
  | ident word =>
    have word := isWord_of_isIdentifier word
    exact opens_of_word (toList_ne_nil_of_isWord word) (isWord_iff.mp word).2
  | number numeral =>
    obtain ⟨whole, fraction, filled, digits, -, same⟩ := exists_of_isNumeral numeral
    have own := opens_of_word filled fun c mem => isWordChar_of_isDigit (digits c mem)
    rcases same with same | same
    · exact same ▸ own
    · exact same ▸ own.append _
  | bigInt digits =>
    obtain ⟨filled, digits⟩ := isDigits_iff.mp digits
    simp only [Tree.kind, renderKind, String.toList_append]
    exact (opens_of_word filled fun c mem => isWordChar_of_isDigit (digits c mem)).append _
  | str x content =>
    exact ⟨'"', by simp [Tree.kind, renderKind, Quoted.literal, Quoted.encode], by decide⟩
  | bool x value =>
    cases value
    · exact opens_of_word (w := "false".toList) (by decide) (List.all_eq_true.mp (by decide))
    · exact opens_of_word (w := "true".toList) (by decide) (List.all_eq_true.mp (by decide))
  | null x => exact opens_of_word (w := "null".toList) (by decide) (List.all_eq_true.mp (by decide))
  | member _ _ ih | call _ _ ih | binary _ _ ih | assign _ _ ih =>
    simp only [Tree.kind, renderKind, renderPart, String.toList_append, List.append_assoc]
    exact (opens_render ih).append _
  | @unary x op operand _ ih =>
    simp only [Tree.kind, renderKind, String.toList_append, List.append_assoc]
    refine Opens.append ?_ _
    cases op <;> exact ⟨_, rfl, by decide⟩
  | array | arrow =>
    simp only [Tree.kind, renderKind, String.toList_append, List.append_assoc]
    exact ⟨_, rfl, by decide⟩

/-! ## Expressions are no parameters -/

theorem names?_render {place : Nat} {cs : List Char}
    (h : names? [] ((renderKind text depth T.kind).toList ++ cs) = none) :
    names? [] ((render text depth place T).toList ++ cs) = none := by
  obtain ⟨x, k⟩ := T
  rw [render, toList_parenthesize]
  split
  · exact names?_stop (w := []) (by simp) (by decide) (by decide)
  · exact h

/-- A unary operation is not read as a name, whatever follows. -/
theorem names?_unary (op : UnaryOp) (operand : Part α ν) (cs : List Char) :
    names? [] ((renderKind text depth (.unary op operand)).toList ++ cs) = none := by
  have word {w : List Char} (keyword : op.isKeyword = true) (same : op.symbol.toList = w)
      (all : ∀ c ∈ w, isWordChar c = true) :
      names? [] ((renderKind text depth (.unary op operand)).toList ++ cs) = none := by
    have gap : unaryGap op operand = " " := by
      unfold unaryGap
      split <;> simp [keyword]
    simp only [renderKind, gap, String.toList_append, same, List.append_assoc]
    exact names?_stop all (by decide) (by decide)
  cases op with
  | typeOf => exact word rfl rfl (List.all_eq_true.mp (by decide))
  | void => exact word rfl rfl (List.all_eq_true.mp (by decide))
  | neg | plus | not | bitNot =>
    simp only [renderKind, String.toList_append, List.append_assoc]
    exact names?_stop (w := []) (by simp) (by decide) (by decide)

/-- An expression with a point, a parenthesis or a blank behind it is not read as names. -/
theorem IsExpr.names?_eq (h : IsExpr text T) {c : Char} (delimiter : isWordChar c = false)
    (other : c ≠ ')' ∧ c ≠ ',') (cs : List Char) :
    names? [] ((renderKind text depth T.kind).toList ++ c :: cs) = none := by
  induction h generalizing c cs with
  | ident word =>
    exact names?_stop (isWord_iff.mp (isWord_of_isIdentifier word)).2 delimiter other
  | number numeral =>
    obtain ⟨whole, fraction, -, digits, -, same | same⟩ := exists_of_isNumeral numeral
    · simp only [Tree.kind, renderKind, same]
      exact names?_stop (fun c mem => isWordChar_of_isDigit (digits c mem)) delimiter other
    · simp only [Tree.kind, renderKind, same, List.append_assoc, List.cons_append]
      exact names?_stop (fun c mem => isWordChar_of_isDigit (digits c mem)) (by decide) (by decide)
  | bigInt digits =>
    refine names?_stop (fun c mem => ?_) delimiter other
    simp only [Tree.kind, renderKind, String.toList_append] at mem
    rcases List.mem_append.mp mem with inside | last
    · exact isWordChar_of_isDigit ((isDigits_iff.mp digits).2 c inside)
    · cases List.mem_singleton.mp last
      decide
  | str x content =>
    simp only [Tree.kind, renderKind, Quoted.literal, Quoted.encode, String.toList_ofList]
    exact names?_stop (w := []) (by simp) (by decide) (by decide)
  | bool x value =>
    cases value
    · exact names?_stop (w := "false".toList) (List.all_eq_true.mp (by decide)) delimiter other
    · exact names?_stop (w := "true".toList) (List.all_eq_true.mp (by decide)) delimiter other
  | null x =>
    exact names?_stop (w := "null".toList) (List.all_eq_true.mp (by decide)) delimiter other
  | member _ _ ih | call _ _ ih | binary _ _ ih | assign _ _ ih =>
    simp only [Tree.kind, renderKind, renderPart, String.toList_append, List.append_assoc]
    exact names?_render (ih (by decide) (by decide) _)
  | unary => exact names?_unary _ _ _
  | array | arrow =>
    simp only [Tree.kind, renderKind, String.toList_append, List.append_assoc]
    exact names?_stop (w := []) (by simp) (by decide) (by decide)

/-- What needs parentheses is not read as parameters between them. -/
theorem IsExpr.params?_eq (h : IsExpr text T) (loose : primaryLevel < level T.kind)
    (cs : List Char) : params? ((renderKind text depth T.kind).toList ++ cs) = none := by
  have start := ((h.opens depth).append cs).ne (c := ')') (by decide)
  have none : names? [] ((renderKind text depth T.kind).toList ++ cs) = none := by
    cases h with
    | binary left | assign left =>
      simp only [Tree.kind, renderKind, renderPart, String.toList_append, List.append_assoc]
      exact names?_render (left.names?_eq (by decide) (by decide) _)
    | unary => exact names?_unary _ _ _
    | arrow =>
      simp only [Tree.kind, renderKind, String.toList_append, List.append_assoc]
      exact names?_stop (w := []) (by simp) (by decide) (by decide)
    | _ => exact (Nat.lt_irrefl _ loose).elim
  rw [params?, if_neg start, none]
  rfl

end Starts

/-! ## Limits -/

section Limits

variable {σ ρ : Type}

/-- The limit of the last place in the text of a kind, if it has no bracket behind it. -/
def edge : Kind ν σ ρ → Option Nat
  | .binary op _ _ => some (rightLimit op)
  | .unary _ _ => some unaryLevel
  | .assign .. | .arrow .. => some looseLevel
  | _ => none

theorem rightLimit_le (op : BinaryOp) : rightLimit op ≤ op.precedence := by
  unfold rightLimit
  split <;> omega

theorem precedence_bounds (op : BinaryOp) :
    unaryLevel < op.precedence ∧ op.precedence < looseLevel := by
  cases op <;> decide

theorem level_le (k : Kind ν σ ρ) : level k ≤ looseLevel := by
  cases k with
  | binary op => exact Nat.le_of_lt (precedence_bounds op).2
  | _ => simp [level, primaryLevel, unaryLevel, looseLevel]

theorem edge_le {k : Kind ν σ ρ} {e : Nat} (mem : e ∈ edge k) : e ≤ level k := by
  cases k with
  | binary op =>
    cases mem
    exact rightLimit_le op
  | unary | assign | arrow =>
    cases mem
    exact Nat.le_refl _
  | _ => cases mem

theorem edge_of_primary {k : Kind ν σ ρ} (primary : level k ≤ primaryLevel) : edge k = none := by
  cases k with
  | binary op =>
    have := (precedence_bounds op).1
    simp [level, primaryLevel, unaryLevel] at primary this
    omega
  | unary | assign | arrow => cases primary
  | _ => rfl

theorem leftLimit_le (op : Joint) : op.leftLimit ≤ op.level := by
  cases op with
  | binary op =>
    simp only [Joint.leftLimit, Joint.level, leftLimit]
    split <;> simp [primaryLevel]
  | assign op => exact Nat.zero_le _

/-- What may stand bare on the left of an operator does not take the operator for its own. -/
theorem edge_lt_level {k : Kind ν σ ρ} {op : Joint} (bare : level k ≤ op.leftLimit) {e : Nat}
    (mem : e ∈ edge k) : e < op.level := by
  cases op with
  | assign op => simp [edge_of_primary bare] at mem
  | binary op =>
    have own := precedence_bounds op
    show e < op.precedence
    -- The one operator that groups to the right takes no operation on its left.
    cases right : op.isRightAssoc with
    | true =>
      have primary : level k ≤ primaryLevel := by
        simpa [Joint.leftLimit, leftLimit, right] using bare
      simp [edge_of_primary primary] at mem
    | false =>
      have bare : level k ≤ op.precedence := by simpa [Joint.leftLimit, leftLimit, right] using bare
      have tight : 2 < op.precedence := by
        revert right
        cases op <;> decide
      cases k with
      | binary inner left right =>
        cases mem
        have bare : inner.precedence ≤ op.precedence := bare
        have inside := precedence_bounds inner
        cases again : inner.isRightAssoc with
        | true =>
          have : inner.precedence = 2 := by
            revert again
            cases inner <;> decide
          simp [rightLimit, again]
          omega
        | false =>
          simp only [rightLimit, again, Bool.false_eq_true, if_false]
          omega
      | unary =>
        cases mem
        exact own.1
      | assign | arrow => exact (Nat.not_le.mpr own.2 bare).elim
      | _ => cases mem

end Limits

/-! ## Reading back -/

section Reading

variable {depth place limit : Nat} {T : Tree α ν} {rest : List Char} {result : Plain × List Char}

/--
The text of a tree without parentheses around it is read, and reading goes on with
what follows. What follows must not belong to the last place in the tree.
-/
def Reads (text : ν → String) (depth : Nat) (T : Tree α ν) : Prop :=
  ∀ limit rest result, level T.kind ≤ limit → Follows rest →
    (∀ e ∈ edge T.kind, e < nextLevel rest) →
    Yields (after · limit (T.plain text) rest) result →
    Yields (expr · limit ((renderKind text depth T.kind).toList ++ rest)) result

/-- Behind a bracket, a comma or the end of a statement nothing more belongs to an expression. -/
theorem closes (rest : List Char) {c : Char} (mem : c ∈ [')', ']', ',', ';']) :
    Follows (c :: rest) ∧ looseLevel < nextLevel (c :: rest) := by
  obtain ⟨other, point, paren, blank⟩ :
      isWordChar c = false ∧ c ≠ '.' ∧ c ≠ '(' ∧ c ≠ ' ' := by
    simp only [List.mem_cons, List.not_mem_nil, or_false] at mem
    rcases mem with rfl | rfl | rfl | rfl <;> decide
  exact ⟨follows_cons other point, by simp [nextLevel, point, paren, blank]⟩

/-- The text of a tree in some place, perhaps with parentheses, is read too. -/
theorem Reads.placed (h : Reads text depth T) (own : IsExpr text T) (le : place ≤ limit)
    (follows : Follows rest) (clear : level T.kind ≤ place → ∀ e ∈ edge T.kind, e < nextLevel rest)
    (next : Yields (after · limit (T.plain text) rest) result) :
    Yields (expr · limit ((render text depth place T).toList ++ rest)) result := by
  have text_eq : (render text depth place T).toList = if place < level T.kind then
      '(' :: ((renderKind text depth T.kind).toList ++ [')']) else
        (renderKind text depth T.kind).toList := by
    obtain ⟨x, k⟩ := T
    rw [render, toList_parenthesize]
    simp only [decide_eq_true_eq]
    rfl
  rw [text_eq]
  split
  · -- Between parentheses everything may stand, and the closing one ends the last place.
    rename_i loose
    obtain ⟨closed, behind⟩ := closes rest (c := ')') (by decide)
    have inside : Yields (expr · looseLevel ((renderKind text depth T.kind).toList ++ ')' :: rest))
        (T.plain text, ')' :: rest) := by
      refine h looseLevel _ _ (level_le _) closed (fun e mem => ?_) (after_stop behind)
      exact Nat.lt_of_le_of_lt (edge_le mem) (Nat.lt_of_le_of_lt (level_le _) behind)
    have none : params? ((renderKind text depth T.kind).toList ++ ')' :: rest) = none :=
      own.params?_eq (Nat.lt_of_le_of_lt (Nat.zero_le _) loose) _
    simpa using expr_paren none inside next
  · rename_i bare
    have bare := Nat.not_lt.mp bare
    exact h limit rest result (Nat.le_trans bare le) follows (clear bare) next

/-- An expression is read up to its end, if nothing that follows belongs to its place. -/
theorem Reads.whole (h : Reads text depth T) (own : IsExpr text T) (follows : Follows rest)
    (stop : place < nextLevel rest) :
    Yields (expr · place ((render text depth place T).toList ++ rest)) (T.plain text, rest) :=
  h.placed own (Nat.le_refl _) follows
    (fun bare _ mem => Nat.lt_of_le_of_lt (Nat.le_trans (edge_le mem) bare) stop) (after_stop stop)

/-- A tree in the tightest place is read whatever may follow it. -/
theorem Reads.primary (h : Reads text depth T) (own : IsExpr text T) (follows : Follows rest)
    (next : Yields (after · limit (T.plain text) rest) result) :
    Yields (expr · limit ((render text depth primaryLevel T).toList ++ rest)) result :=
  h.placed own (Nat.zero_le _) follows
    (fun bare e mem => by simp [edge_of_primary bare] at mem) next

theorem commas_cons_cons (first second : List Char) (others : List (List Char)) :
    commas (first :: second :: others) = first ++ ',' :: ' ' :: commas (second :: others) := by
  simp [commas]

/-- Entries of a list are read one after the other. -/
theorem reads_items {entries : List (Tree α ν)} (own : ∀ c ∈ entries, IsExpr text c)
    (reads : ∀ c ∈ entries, Reads text depth c) (close : Char) (mem : close ∈ [')', ']'])
    (rest : List Char) :
    Yields
      (items · close ((renderItems text depth "" "" (entries.map some)).toList ++ close :: rest))
      (entries.map fun c => some (c.plain text), rest) := by
  rw [toList_renderItems, List.map_map]
  show Yields (items · close (commas (entries.map fun c =>
    (render text depth looseLevel c).toList) ++ close :: rest)) _
  induction entries with
  | nil => exact items_nil close rest
  | cons first others ih =>
    have listed : close ∈ [' ', ')', ']'] := List.mem_cons_of_mem _ mem
    have here := own first List.mem_cons_self
    have start : Opens (render text depth looseLevel first).toList :=
      opens_render (here.opens depth)
    have later := ih (fun c mem => own c (List.mem_cons_of_mem _ mem))
      fun c mem => reads c (List.mem_cons_of_mem _ mem)
    cases others with
    | nil =>
      obtain ⟨ends, other⟩ : close ∈ [')', ']', ',', ';'] ∧ close ≠ ',' := by
        simp only [List.mem_cons, List.not_mem_nil, or_false] at mem
        rcases mem with rfl | rfl <;> decide
      obtain ⟨closed, behind⟩ := closes rest ends
      have inside := (reads first List.mem_cons_self).whole here closed behind
      have same : dropComma (close :: rest) = close :: rest := by
        simp [dropComma, other]
      simp only [List.map_cons, List.map_nil, commas, List.flatMap_nil, List.append_nil]
      exact items_cons ((start.append _).ne listed) inside (same.symm ▸ items_nil close rest)
    | cons second others =>
      rw [List.map_cons, List.map_cons, commas_cons_cons, List.append_assoc]
      obtain ⟨closed, behind⟩ := closes (' ' :: (commas ((second :: others).map
        fun c => (render text depth looseLevel c).toList) ++ close :: rest)) (c := ',') (by decide)
      exact items_cons ((start.append _).ne listed)
        ((reads first List.mem_cons_self).whole here closed behind) later

/-- A word that is no operator is read as what it stands for. -/
theorem reads_word {w : String} (word : isWord w = true) (other : w ≠ "typeof" ∧ w ≠ "void")
    (follows : Follows rest) (next : Yields (after · limit (ofWord w) rest) result) :
    Yields (expr · limit (w.toList ++ rest)) result := by
  have filled := toList_ne_nil_of_isWord word
  have all := (isWord_iff.mp word).2
  have none : unaryOp? (w.toList ++ rest) = none :=
    unaryOp?_word filled all follows.word (by rwa [String.ofList_toList])
  exact expr_atom (bare_of_word filled all) none (atom_word word follows.word) next

/-- No operator starts with a digit. -/
theorem unaryOp?_digits {w : List Char} (more : List Char) (filled : w ≠ [])
    (digits : ∀ c ∈ w, c.isDigit = true) (all : ∀ c ∈ more, isWordChar c = true)
    (ends : ∀ c ∈ rest.head?, isWordChar c = false) :
    unaryOp? (w ++ (more ++ rest)) = none := by
  rw [← List.append_assoc]
  refine unaryOp?_word (by simp [filled]) (fun c mem => ?_) ends ?_
  · rcases List.mem_append.mp mem with digit | word
    · exact isWordChar_of_isDigit (digits c digit)
    · exact all c word
  · have start {word : String} (same : String.ofList (w ++ more) = word) :
        word.toList.head?.any Char.isDigit = true := by
      rw [← same, String.toList_ofList]
      exact head?_any_of_all filled digits
    exact ⟨fun same => absurd (start same) (by decide), fun same => absurd (start same) (by decide)⟩

theorem reads_joint (op : Joint) {left right : Tree α ν} (own : IsExpr text left)
    (own' : IsExpr text right) (reads : Reads text depth left) (reads' : Reads text depth right)
    (within : op.level ≤ limit) (follows : Follows rest) (stop : op.rightLimit < nextLevel rest)
    (next : Yields (after · limit (.node () (op.join (some (left.plain text))
      (some (right.plain text)))) rest) result) :
    Yields (expr · limit ((render text depth op.leftLimit left).toList ++ ' ' ::
      (op.symbol.toList ++ ' ' :: ((render text depth op.rightLimit right).toList ++ rest))))
      result := by
  have left_le : op.leftLimit ≤ limit := Nat.le_trans (leftLimit_le op) within
  refine reads.placed own left_le (follows_cons (by decide) (by decide)) (fun bare e mem => ?_) ?_
  · rw [nextLevel_joint]
    exact edge_lt_level bare mem
  · exact after_joint within (reads'.whole own' follows stop) next

/-- The gap behind an operator keeps it from what follows. -/
theorem unaryGap_cases (op : UnaryOp) (operand : Part α ν) :
    (unaryGap op operand).toList = [' '] ∨
      (unaryGap op operand).toList = [] ∧ op.isKeyword = false := by
  unfold unaryGap
  split <;> split <;> simp_all

theorem IsExpr.reads (h : IsExpr text T) (depth : Nat) : Reads text depth T := by
  induction h with
  | @ident x name word =>
    intro limit rest result within follows clear next
    obtain ⟨word, free⟩ := Bool.and_eq_true_iff.mp word
    have free : text name ∉ reserved := by simpa using free
    simp only [reserved, List.mem_cons, not_or] at free
    refine reads_word (w := text name) word ⟨free.2.2.2.1, free.2.2.2.2.1⟩ follows ?_
    rw [ofWord, if_neg free.1, if_neg free.2.1, if_neg free.2.2.1]
    exact next
  | @number x digits numeral =>
    intro limit rest result within follows clear next
    obtain ⟨whole, fraction, filled, all, -, same⟩ := exists_of_isNumeral numeral
    have read := atom_number numeral follows
    show Yields (expr · limit ((text digits).toList ++ rest)) result
    rcases same with same | same
    · rw [same] at read ⊢
      exact expr_atom (bare_of_word filled fun c mem => isWordChar_of_isDigit (all c mem))
        (unaryOp?_digits [] filled all nofun follows.word) read next
    · rw [same, List.append_assoc] at read ⊢
      refine expr_atom (bare_of_word filled fun c mem => isWordChar_of_isDigit (all c mem))
        (unaryOp?_digits [] filled all nofun fun c mem => ?_) read next
      cases mem
      decide
  | @bigInt x digits whole =>
    intro limit rest result within follows clear next
    obtain ⟨filled, all⟩ := isDigits_iff.mp whole
    have read : atom ((text digits).toList ++ 'n' :: rest) =
        (.node () (.bigInt (text digits)), rest) := atom_bigInt whole
    simp only [Tree.kind, renderKind, String.toList_append, List.append_assoc]
    exact expr_atom (bare_of_word filled fun c mem => isWordChar_of_isDigit (all c mem))
      (unaryOp?_digits ['n'] filled all (List.all_eq_true.mp (by decide)) follows.word) read next
  | str x content =>
    intro limit rest result within follows clear next
    exact expr_str next
  | bool x value =>
    intro limit rest result within follows clear next
    cases value
    · exact reads_word (w := "false") (by decide) (by decide) follows next
    · exact reads_word (w := "true") (by decide) (by decide) follows next
  | null x =>
    intro limit rest result within follows clear next
    exact reads_word (w := "null") (by decide) (by decide) follows next
  | @member x object property own word ih =>
    intro limit rest result within follows clear next
    obtain ⟨first, all⟩ := isWord_iff.mp (isWord_of_isIdentifier word)
    simp only [Tree.kind, renderKind, renderPart, String.toList_append, List.append_assoc]
    refine ih.primary own ⟨fun c mem => ?_, fun _ => ?_⟩ ?_
    · cases mem
      decide
    · exact head?_any_append (w := (text property).toList) first
    · exact after_member (List.all_eq_true.mpr all) follows.word next
  | @call x callee args own owns ih ihs =>
    intro limit rest result within follows clear next
    have entries := reads_items owns ihs ')' (by decide) rest
    simp only [Tree.kind, renderKind, renderPart, String.toList_append, List.append_assoc]
    refine ih.primary own (follows_cons (by decide) (by decide)) (after_call entries ?_)
    simpa [plain_eq, Kind.rename, Kind.map, Function.comp_def] using next
  | @binary x op left right own own' ih ih' =>
    intro limit rest result within follows clear next
    simp only [Tree.kind, renderKind, renderPart, String.toList_append, List.append_assoc]
    exact reads_joint (.binary op) own own' ih ih' within follows (clear _ rfl) next
  | @assign x op target value own own' ih ih' =>
    intro limit rest result within follows clear next
    simp only [Tree.kind, renderKind, renderPart, String.toList_append, List.append_assoc]
    exact reads_joint (.assign op) own own' ih ih' within follows (clear _ rfl) next
  | @unary x op operand own ih =>
    intro limit rest result within follows clear next
    simp only [Tree.kind, renderKind, renderPart, String.toList_append, List.append_assoc]
    have start : Opens (render text depth unaryLevel operand).toList :=
      opens_render (own.opens depth)
    have blank := (start.append rest).ne (c := ' ') (by decide)
    have found := unaryOp?_symbol op blank (unaryGap_cases op (some operand))
    exact expr_unary (bare_symbol op _) found (ih.whole own follows (clear _ rfl)) next
  | @array x elements owns ihs =>
    intro limit rest result within follows clear next
    have entries := reads_items owns ihs ']' (by decide) rest
    simp only [Tree.kind, renderKind, String.toList_append, List.append_assoc]
    refine expr_array entries ?_
    simpa [plain_eq, Kind.rename, Kind.map, Function.comp_def] using next
  | @arrow x params body words own ih =>
    intro limit rest result within follows clear next
    have names : ∀ name ∈ params.map fun p => text p.2, isWord name = true := by
      intro name mem
      obtain ⟨p, listed, rfl⟩ := List.mem_map.mp mem
      exact isWord_of_isIdentifier (words p listed)
    have same : (renderItems text depth "" "" (params.map fun p =>
        some (.node p.1 (.param p.2)))).toList =
        commas ((params.map fun p => text p.2).map String.toList) := by
      rw [toList_renderItems, List.map_map, List.map_map]
      rfl
    simp only [Tree.kind, renderKind, renderPart, String.toList_append, List.append_assoc, same]
    refine expr_arrow (params?_commas names) (ih.whole own follows (clear _ rfl)) ?_
    simpa [plain_eq, Kind.rename, Kind.map, Function.comp_def, Reader.arrow] using next

end Reading

/-! ## Expression statements -/

theorem toList_exprStmt {x : α} {T : Tree α ν} :
    (unitText text (.node x (.exprStmt (some T)))).toList =
      (render text 0 looseLevel T).toList ++ [';', '\n'] := by
  have bare : render text 0 looseLevel (.node x (.exprStmt (some T))) =
      render text 0 looseLevel T ++ ";" := rfl
  have last : (render text 0 looseLevel T ++ ";").toList.getLast? = some ';' := by simp
  rw [unitText, bare, endLine_eq_append last (by decide)]
  simp

/-- The text of an expression statement is read as the expression. -/
theorem IsExpr.unitText_reads {x : α} {T : Tree α ν} (own : IsExpr text T) :
    Yields (expr · looseLevel (unitText text (.node x (.exprStmt (some T)))).toList)
      (T.plain text, [';', '\n']) := by
  obtain ⟨follows, stop⟩ := closes ['\n'] (c := ';') (by decide)
  rw [toList_exprStmt]
  exact (own.reads 0).whole own follows stop

end Tree

/--
Expression statements with the same text hold the same expression. That is so for
texts of different tables of names too; in one table the names are the same as well.
-/
theorem Store.print_exprStmt_injective {s₁ s₂ : Store} {x₁ x₂ : Nat} {T₁ T₂ : Tree Nat Name}
    {text₁ text₂ : Name → String} (read₁ : s₁.wholeTree x₁ = .ok (.node x₁ (.exprStmt (some T₁))))
    (read₂ : s₂.wholeTree x₂ = .ok (.node x₂ (.exprStmt (some T₂)))) (own₁ : T₁.IsExpr text₁)
    (own₂ : T₂.IsExpr text₂) (same : s₁.print text₁ (some x₁) = s₂.print text₂ (some x₂)) :
    (T₁.rename text₁).form = (T₂.rename text₂).form ∧
      ∀ names : Names, names.Consistent → text₁ = names.text → text₂ = names.text →
        T₁.NamedIn names → T₂.NamedIn names → T₁.form = T₂.form := by
  have texts : Tree.unitText text₁ (.node x₁ (.exprStmt (some T₁))) =
      Tree.unitText text₂ (.node x₂ (.exprStmt (some T₂))) := by
    rw [Store.print, Store.print, read₁, read₂] at same
    exact Except.ok.inj same
  have first := own₁.unitText_reads (x := x₁)
  have second := own₂.unitText_reads (x := x₂)
  rw [texts] at first
  have plain : T₁.plain text₁ = T₂.plain text₂ := (Prod.mk.inj (first.unique second)).1
  refine ⟨plain, fun names consistent left right named₁ named₂ => ?_⟩
  rw [left, right] at plain
  exact Tree.form_eq_of_plain consistent named₁ named₂ plain

namespace Sample

/-- The names of `(- -a) ** b(2);`. -/
def powerNames : Names :=
  ["a", "b", "2"].foldl (fun t text => (t.intern text).2) .fresh

def power (name inner outer callee arg call top : Nat) : Tree Nat Name :=
  .node top (.binary .pow
    (some (.node outer (.unary .neg
      (some (.node inner (.unary .neg (some (.node name (.ident 1)))))))))
    (some (.node call (.call (some (.node callee (.ident 2))) [some (.node arg (.number 3))]))))

/-- The statement as it is built from left to right. -/
def powerStore : Store where
  nodes := #[
    ⟨.ident 1, ⟨4, 5⟩⟩, ⟨.unary .neg (some 0), ⟨3, 5⟩⟩, ⟨.unary .neg (some 1), ⟨1, 5⟩⟩,
    ⟨.ident 2, ⟨10, 11⟩⟩, ⟨.number 3, ⟨12, 13⟩⟩, ⟨.call (some 3) ⟨0, 1⟩, ⟨10, 14⟩⟩,
    ⟨.binary .pow (some 2) (some 5), ⟨0, 14⟩⟩, ⟨.exprStmt (some 6), ⟨0, 15⟩⟩]
  lists := #[some 4]

/-- The statement built from right to left, without places in a source. -/
def powerStoreAgain : Store where
  nodes := #[
    ⟨.number 3, ⟨0, 0⟩⟩, ⟨.ident 2, ⟨0, 0⟩⟩, ⟨.call (some 1) ⟨0, 1⟩, ⟨0, 0⟩⟩,
    ⟨.ident 1, ⟨0, 0⟩⟩, ⟨.unary .neg (some 3), ⟨0, 0⟩⟩, ⟨.unary .neg (some 4), ⟨0, 0⟩⟩,
    ⟨.binary .pow (some 5) (some 2), ⟨0, 0⟩⟩, ⟨.exprStmt (some 6), ⟨0, 0⟩⟩]
  lists := #[some 0]

theorem power_isExpr (name inner outer callee arg call top : Nat) :
    (power name inner outer callee arg call top).IsExpr powerNames.text := by
  have args : ∀ c ∈ [(.node arg (.number 3) : Tree Nat Name)], c.IsExpr powerNames.text := by
    intro c mem
    cases List.mem_singleton.mp mem
    exact .number (by decide +kernel)
  exact .binary (.unary (.unary (.ident (by decide +kernel))))
    (.call (.ident (by decide +kernel)) args)

end Sample

/-- One expression in two stores, with other nodes and other places. -/
theorem Store.print_exprStmt_injective_sample :
    Sample.powerStore.print Sample.powerNames.text (some 7) = .ok "(- -a) ** b(2);\n" ∧
      Sample.powerStoreAgain.print Sample.powerNames.text (some 7) = .ok "(- -a) ** b(2);\n" ∧
      (Sample.power 0 1 2 3 4 5 6).form = (Sample.power 3 4 5 1 0 2 6).form := by
  refine ⟨by decide +kernel, by decide +kernel, ?_⟩
  have both := @Store.print_exprStmt_injective Sample.powerStore Sample.powerStoreAgain 7 7
    (Sample.power 0 1 2 3 4 5 6) (Sample.power 3 4 5 1 0 2 6) Sample.powerNames.text
    Sample.powerNames.text rfl rfl (Sample.power_isExpr ..) (Sample.power_isExpr ..)
    (by decide +kernel)
  refine both.2 Sample.powerNames (Names.consistent_fresh.interned _) rfl rfl ?_ ?_
  · unfold Tree.NamedIn
    decide +kernel
  · unfold Tree.NamedIn
    decide +kernel

end BigLower
