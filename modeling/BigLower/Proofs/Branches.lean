import BigLower.Proofs.Unambiguous

/-! # Texts of statements

Branches are written without braces, so an else stands for the nearest branch
before it that has none yet. Here a tree is regrouped such that every else
belongs where its text puts it. Two statements have the same text exactly if
they are the same once they are regrouped.
-/

namespace BigLower

namespace Tree

variable {α ν : Type}

/-! ## Open branches -/

/-- Whether the text of a statement ends in a branch that has no else. -/
def isOpen : Tree α ν → Bool
  | .node _ (.cond _ _ none) => true
  | .node _ (.cond _ _ (some no)) => isOpen no
  | _ => false

/-- Give an else to the last branch that has none, in a statement that ends in one. -/
def attach (no : Tree α ν) : Tree α ν → Tree α ν
  | .node x (.cond test (some yes) none) =>
    if yes.isOpen then .node x (.cond test (some (attach no yes)) none)
    else .node x (.cond test (some yes) (some no))
  | .node x (.cond test yes (some other)) => .node x (.cond test yes (some (attach no other)))
  | T => T

mutual

/-- The statement with every else at the branch that its text gives it to. -/
def regroup : Tree α ν → Tree α ν
  | .node x (.cond test (some yes) (some no)) =>
    attach (regroup no) (.node x (.cond test (some (regroup yes)) none))
  | .node x (.cond test (some yes) none) => .node x (.cond test (some (regroup yes)) none)
  | .node x (.block body) => .node x (.block (regroupList body))
  | T => T

@[inherit_doc regroup]
def regroupList : List (Part α ν) → List (Part α ν)
  | [] => []
  | none :: rest => none :: regroupList rest
  | some tree :: rest => some (regroup tree) :: regroupList rest

end

def Grouped (T : Tree α ν) : Prop :=
  ∀ u ∈ T.subtrees, ∀ test yes no, u.kind = .cond test (some yes) (some no) → yes.isOpen = false

theorem regroupList_map (body : List (Tree α ν)) :
    regroupList (body.map some) = (body.map regroup).map some := by
  induction body with
  | nil => rfl
  | cons first rest ih => simp [regroupList, ih]

theorem grouped_iff {T : Tree α ν} : T.Grouped ↔
    (∀ test yes no, T.kind = .cond test (some yes) (some no) → yes.isOpen = false) ∧
      ∀ c ∈ T.children, c.Grouped := by
  constructor
  · intro all
    exact ⟨all T T.self_mem_subtrees,
      fun c child u inside => all u (mem_subtrees_of_child child inside)⟩
  · rintro ⟨top, below⟩ u mem
    rcases mem_subtrees_iff.mp mem with rfl | ⟨c, child, inside⟩
    · exact top
    · exact below c child u inside

end Tree

namespace Reader

/-! ## Statements -/

def keywords : List String := ["if", "else", "return"]

def isName (text : String) : Bool := isWord text && !keywords.contains text

def ident (name : String) : Plain := .node () (.ident name)

inductive IsStmt : Plain → Prop where
  | exprStmt {name : String} : isName name = true →
      IsStmt (.node () (.exprStmt (some (ident name))))
  | ret {value : Option String} : (∀ name ∈ value, isName name = true) →
      IsStmt (.node () (.ret (value.map ident)))
  | block {body : List Plain} : (∀ c ∈ body, IsStmt c) → IsStmt (.node () (.block (body.map some)))
  | cond {test : String} {yes : Plain} {no : Option Plain} : isName test = true → IsStmt yes →
      (∀ c ∈ no, IsStmt c) → IsStmt (.node () (.cond (some (ident test)) (some yes) no))

/-! ## Texts as lists of characters -/

def returnText : List Char := ['r', 'e', 't', 'u', 'r', 'n']

def elseText : List Char := [' ', 'e', 'l', 's', 'e', ' ']

def source (depth : Nat) (P : Plain) : List Char := (P.render id depth Tree.looseLevel).toList

theorem source_exprStmt (depth : Nat) (name : String) :
    source depth (.node () (.exprStmt (some (ident name)))) = name.toList ++ [';'] := by
  show (name ++ ";").toList = _
  simp

theorem source_ret (depth : Nat) (value : Option String) :
    source depth (.node () (.ret (value.map ident))) =
      returnText ++ (value.elim [] (fun name => ' ' :: name.toList) ++ [';']) := by
  cases value with
  | none =>
    show ("return" ++ "" ++ ";").toList = _
    simp [returnText]
  | some name =>
    show ("return" ++ (" " ++ name) ++ ";").toList = _
    simp [returnText]

theorem source_cond (depth : Nat) (test : String) (yes : Plain) (no : Option Plain) :
    source depth (.node () (.cond (some (ident test)) (some yes) no)) =
      'i' :: 'f' :: ' ' :: '(' :: (test.toList ++ ')' :: ' ' :: (source depth yes ++
        no.elim [] fun no => elseText ++ source depth no)) := by
  cases no with
  | none =>
    show ("if (" ++ test ++ ") " ++ yes.render id depth Tree.looseLevel ++ "").toList = _
    simp [source]
  | some no =>
    show ("if (" ++ test ++ ") " ++ yes.render id depth Tree.looseLevel ++
      (" else " ++ no.render id depth Tree.looseLevel)).toList = _
    simp [source, elseText]

theorem source_block_nil (depth : Nat) :
    source depth (.node () (.block [])) = ['\x7b', '\x7d'] := by
  show "\x7b\x7d".toList = _
  rfl

def lines (depth : Nat) (body : List Plain) : List Char :=
  body.flatMap fun c => List.replicate (4 * depth) ' ' ++ (source depth c ++ ['\n'])

theorem toList_renderLines (depth : Nat) (body : List Plain) :
    (Tree.renderLines id depth "" (body.map some)).toList = lines depth body := by
  induction body with
  | nil => rfl
  | cons first rest ih =>
    rw [List.map_cons, Tree.renderLines, Tree.renderLines_eq, String.toList_append, ih]
    simp [lines, Tree.renderPart, Tree.margin, source]

theorem source_block (depth : Nat) (first : Plain) (others : List Plain) :
    source depth (.node () (.block ((first :: others).map some))) = '\x7b' :: '\n' ::
      (lines (depth + 1) (first :: others) ++ (List.replicate (4 * depth) ' ' ++ ['\x7d'])) := by
  show ("\x7b\n" ++ Tree.renderLines id (depth + 1) "" ((first :: others).map some) ++
    Tree.margin depth ++ "\x7d").toList = _
  simp only [String.toList_append, toList_renderLines, Tree.margin, String.toList_ofList,
    List.append_assoc]
  rfl

/-! ## Regrouping keeps the text -/

section Regrouping

variable {P no : Plain}

theorem attach_of_closed {test : Option Plain} {yes : Plain} (closed : yes.isOpen = false) :
    Tree.attach no (.node () (.cond test (some yes) none)) =
      .node () (.cond test (some yes) (some no)) := by
  rw [Tree.attach, closed, if_neg Bool.false_ne_true]

theorem attach_of_open {test : Option Plain} {yes : Plain} (opened : yes.isOpen = true) :
    Tree.attach no (.node () (.cond test (some yes) none)) =
      .node () (.cond test (some (Tree.attach no yes)) none) := by
  rw [Tree.attach, opened, if_pos rfl]

theorem grouped_ident (name : String) : (ident name).Grouped :=
  Tree.grouped_iff.mpr ⟨nofun, nofun⟩

theorem grouped_cond_iff {test : String} {yes : Plain} {no : Option Plain} :
    Tree.Grouped (.node () (.cond (some (ident test)) (some yes) no)) ↔
      yes.Grouped ∧ ∀ c ∈ no, yes.isOpen = false ∧ c.Grouped := by
  rw [Tree.grouped_iff]
  simp only [Tree.mem_children_iff, Tree.kind, Kind.slots, Kind.parts]
  cases no with
  | none => simp [grouped_ident]
  | some no =>
    simp only [List.flatMap_cons, List.flatMap_nil]
    simp [grouped_ident]
    tauto

theorem grouped_block_iff {body : List Plain} :
    Tree.Grouped (.node () (.block (body.map some))) ↔ ∀ c ∈ body, c.Grouped := by
  rw [Tree.grouped_iff]
  simp only [Tree.mem_children_iff, Tree.kind, Kind.slots, Kind.parts]
  simp

theorem IsStmt.attach (own : IsStmt P) (opened : P.isOpen = true) (own' : IsStmt no) :
    IsStmt (Tree.attach no P) ∧ (P.Grouped → no.Grouped → (Tree.attach no P).Grouped) ∧
      ∀ depth, source depth (Tree.attach no P) =
        source depth P ++ (elseText ++ source depth no) := by
  induction own with
  | exprStmt | ret | block => cases opened
  | @cond test yes other name own owns ih ihs =>
    cases other with
    | none =>
      cases inner : yes.isOpen with
      | false =>
        rw [attach_of_closed inner]
        refine ⟨.cond name own (by simpa using own'), fun grouped grouped' => ?_, fun depth => ?_⟩
        · have first := (grouped_cond_iff.mp grouped).1
          exact grouped_cond_iff.mpr ⟨first, by simpa using ⟨inner, grouped'⟩⟩
        · simp [source_cond]
      | true =>
        obtain ⟨stmt, keeps, text⟩ := ih inner
        rw [attach_of_open inner]
        refine ⟨.cond name stmt nofun, fun grouped grouped' => ?_, fun depth => ?_⟩
        · exact grouped_cond_iff.mpr ⟨keeps (grouped_cond_iff.mp grouped).1 grouped', nofun⟩
        · simp [source_cond, text]
    | some other =>
      have last : Tree.attach no (.node () (.cond (some (ident test)) (some yes) (some other))) =
          .node () (.cond (some (ident test)) (some yes) (some (Tree.attach no other))) := by
        rw [Tree.attach]
      obtain ⟨stmt, keeps, text⟩ := ihs other rfl opened
      rw [last]
      refine ⟨.cond name own (by simpa using stmt), fun grouped grouped' => ?_, fun depth => ?_⟩
      · obtain ⟨first, second⟩ := grouped_cond_iff.mp grouped
        obtain ⟨closed, rest⟩ := second other rfl
        exact grouped_cond_iff.mpr ⟨first, by simpa using ⟨closed, keeps rest grouped'⟩⟩
      · simp [source_cond, text]

theorem IsStmt.regroup_of_grouped (own : IsStmt P) (grouped : P.Grouped) : P.regroup = P := by
  induction own with
  | exprStmt | ret => rfl
  | @block body own ih =>
    have each : ∀ c ∈ body, c.regroup = c := fun c mem =>
      ih c mem (grouped_block_iff.mp grouped c mem)
    rw [Tree.regroup, Tree.regroupList_map, List.map_congr_left each, List.map_id']
  | @cond test yes no name own owns ih ihs =>
    obtain ⟨first, second⟩ := grouped_cond_iff.mp grouped
    cases no with
    | none => rw [Tree.regroup, ih first]
    | some no =>
      obtain ⟨closed, rest⟩ := second no rfl
      rw [Tree.regroup, ih first, ihs no rfl rest, attach_of_closed closed]

/-- Regrouping gives a statement without misplaced else branches that has the same text. -/
theorem IsStmt.regroup (own : IsStmt P) :
    IsStmt P.regroup ∧ P.regroup.Grouped ∧ ∀ depth, source depth P.regroup = source depth P := by
  induction own with
  | @exprStmt name word =>
    refine ⟨.exprStmt word, Tree.grouped_iff.mpr ⟨nofun, fun c child => ?_⟩, fun _ => rfl⟩
    cases List.mem_singleton.mp child
    exact grouped_ident name
  | @ret value words =>
    refine ⟨.ret words, Tree.grouped_iff.mpr ⟨nofun, fun c child => ?_⟩, fun _ => rfl⟩
    cases value with
    | none => cases child
    | some name =>
      cases List.mem_singleton.mp child
      exact grouped_ident name
  | @block body own ih =>
    rw [Tree.regroup, Tree.regroupList_map]
    refine ⟨.block fun c mem => ?_, grouped_block_iff.mpr fun c mem => ?_, fun depth => ?_⟩
    · obtain ⟨d, listed, rfl⟩ := List.mem_map.mp mem
      exact (ih d listed).1
    · obtain ⟨d, listed, rfl⟩ := List.mem_map.mp mem
      exact (ih d listed).2.1
    · have same : lines (depth + 1) (body.map Tree.regroup) = lines (depth + 1) body := by
        unfold lines
        rw [List.flatMap_map]
        exact List.flatMap_congr fun c mem => by rw [(ih c mem).2.2]
      cases body with
      | nil => rfl
      | cons first others =>
        rw [List.map_cons] at same ⊢
        rw [source_block, source_block, same]
  | @cond test yes no name own owns ih ihs =>
    obtain ⟨stmt, grouped, same⟩ := ih
    cases no with
    | none =>
      rw [Tree.regroup]
      exact ⟨.cond name stmt nofun, grouped_cond_iff.mpr ⟨grouped, nofun⟩,
        fun depth => by simp [source_cond, same]⟩
    | some no =>
      obtain ⟨stmt', grouped', same'⟩ := ihs no rfl
      have bare : IsStmt (.node () (.cond (some (ident test)) (some yes.regroup) none)) :=
        .cond name stmt nofun
      obtain ⟨whole, keeps, text⟩ := bare.attach rfl stmt'
      rw [Tree.regroup]
      refine ⟨whole, keeps (grouped_cond_iff.mpr ⟨grouped, nofun⟩) grouped', fun depth => ?_⟩
      rw [text]
      simp [source_cond, same, same']

end Regrouping

/-! ## Reading statements -/

def cutWord (cs : List Char) : String × List Char :=
  (String.ofList (cs.takeWhile isWordChar), cs.dropWhile isWordChar)

def simple (word : String) (rest : List Char) : Plain × List Char :=
  if word = "return" then
    if rest.head? = some ';' then (.node () (.ret none), rest.tail)
    else (.node () (.ret (some (ident (cutWord rest.tail).1))), (cutWord rest.tail).2.tail)
  else (.node () (.exprStmt (some (ident word))), rest.tail)

def isBlank (c : Char) : Bool := c == ' ' || c == '\n'

mutual

def stmt : Nat → List Char → Option (Plain × List Char)
  | 0, _ => none
  | fuel + 1, cs =>
    if cs.head? = some '\x7b' then do
      let (body, rest) ← stmts fuel cs.tail
      some (.node () (.block body), rest)
    else if (cutWord cs).1 = "if" then do
      let (test, rest) := cutWord ((cutWord cs).2.drop 2)
      let (yes, rest) ← stmt fuel (rest.drop 2)
      otherwise fuel test yes rest
    else some (simple (cutWord cs).1 (cutWord cs).2)

/-- Read what follows a branch: an else belongs to the branch that was read last. -/
def otherwise : Nat → String → Plain → List Char → Option (Plain × List Char)
  | 0, _, _, _ => none
  | fuel + 1, test, yes, cs =>
    if cs.take 6 = elseText then do
      let (no, rest) ← stmt fuel (cs.drop 6)
      some (.node () (.cond (some (ident test)) (some yes) (some no)), rest)
    else some (.node () (.cond (some (ident test)) (some yes) none), cs)

def stmts : Nat → List Char → Option (List (Option Plain) × List Char)
  | 0, _ => none
  | fuel + 1, cs =>
    if (cs.dropWhile isBlank).head? = some '\x7d' then some ([], (cs.dropWhile isBlank).tail)
    else do
      let (first, rest) ← stmt fuel (cs.dropWhile isBlank)
      let (others, rest) ← stmts fuel rest
      some (some first :: others, rest)

end

section Steps

variable {cs rest : List Char} {P Q : Plain}

theorem cutWord_append {w : String} (all : ∀ c ∈ w.toList, isWordChar c = true)
    (ends : ∀ c ∈ rest.head?, isWordChar c = false) : cutWord (w.toList ++ rest) = (w, rest) := by
  obtain ⟨taken, left⟩ := span_append all ends
  rw [cutWord, taken, left, String.ofList_toList]

theorem cutWord_cons {w : String} (all : ∀ c ∈ w.toList, isWordChar c = true) {c : Char}
    (delimiter : isWordChar c = false) : cutWord (w.toList ++ c :: rest) = (w, c :: rest) := by
  refine cutWord_append all fun d mem => ?_
  cases mem
  exact delimiter

theorem isName_iff {w : String} : isName w = true ↔ isWord w = true ∧ w ∉ keywords := by
  simp [isName]

theorem head?_ne_brace {w : String} (word : isWord w = true) :
    (w.toList ++ rest).head? ≠ some '\x7b' := by
  obtain ⟨first, all⟩ := isWord_iff.mp word
  cases list : w.toList with
  | nil => simp [list] at first
  | cons c cs =>
    have own := all c (by simp [list])
    rintro ⟨⟩
    revert own
    decide

theorem stmt_block {body : List (Option Plain)} (inside : Yields (stmts · cs) (body, rest)) :
    Yields (stmt · ('\x7b' :: cs)) (.node () (.block body), rest) := by
  refine .step (fun n => ?_) (inside.bind (k := fun (body, rest) _ =>
    some (.node () (.block body), rest)) (.pure _))
  simp [stmt]

theorem stmt_simple {w : String} (word : isWord w = true) (other : w ≠ "if")
    (ends : ∀ c ∈ rest.head?, isWordChar c = false) {result : Plain × List Char}
    (read : simple w rest = result) : Yields (stmt · (w.toList ++ rest)) result := by
  have cut := cutWord_append (isWord_iff.mp word).2 ends
  refine .step (fun n => ?_) (.pure _)
  rw [stmt, if_neg (head?_ne_brace word), cut, if_neg other, read]

theorem stmt_exprStmt {name : String} (own : isName name = true) :
    Yields (stmt · (name.toList ++ ';' :: rest))
      (.node () (.exprStmt (some (ident name))), rest) := by
  obtain ⟨word, other⟩ := isName_iff.mp own
  simp only [keywords, List.mem_cons, not_or] at other
  refine stmt_simple word other.1 (by simpa using (by decide : isWordChar ';' = false)) ?_
  rw [simple, if_neg other.2.2.1]
  rfl

theorem stmt_ret {value : Option String} (own : ∀ name ∈ value, isName name = true) :
    Yields (stmt · (returnText ++ (value.elim [] (fun name => ' ' :: name.toList) ++ ';' :: rest)))
      (.node () (.ret (value.map ident)), rest) := by
  have word : isWord "return" = true := by decide
  cases value with
  | none =>
    refine stmt_simple (w := "return") word (by decide) ?_ ?_
    · simpa using (by decide : isWordChar ';' = false)
    · simp [simple]
  | some name =>
    have cut : cutWord (name.toList ++ ';' :: rest) = (name, ';' :: rest) :=
      cutWord_cons (isWord_iff.mp (isName_iff.mp (own name rfl)).1).2 (by decide)
    refine stmt_simple (w := "return") word (by decide) ?_ ?_
    · simpa using (by decide : isWordChar ' ' = false)
    · simp [simple, cut]

theorem stmt_cond {test : String} (own : isName test = true) (inside : Yields (stmt · cs) (P, rest))
    {result : Plain × List Char} (next : Yields (otherwise · test P rest) result) :
    Yields (stmt · ('i' :: 'f' :: ' ' :: '(' :: (test.toList ++ ')' :: ' ' :: cs))) result := by
  have word : ∀ c ∈ "if".toList, isWordChar c = true := List.all_eq_true.mp (by decide)
  have cut : cutWord ('i' :: 'f' :: ' ' :: '(' :: (test.toList ++ ')' :: ' ' :: cs)) =
      ("if", ' ' :: '(' :: (test.toList ++ ')' :: ' ' :: cs)) := cutWord_cons word (by decide)
  have cut' : cutWord (test.toList ++ ')' :: ' ' :: cs) = (test, ')' :: ' ' :: cs) :=
    cutWord_cons (isWord_iff.mp (isName_iff.mp own).1).2 (by decide)
  refine .step (fun n => ?_) (inside.bind (k := fun (yes, rest) n =>
    otherwise n test yes rest) next)
  rw [stmt, if_neg (by simp), cut, if_pos rfl]
  simp [cut']

theorem otherwise_stop {test : String} (stop : rest.take 6 ≠ elseText) :
    Yields (otherwise · test P rest)
      (.node () (.cond (some (ident test)) (some P) none), rest) := by
  refine .step (fun n => ?_) (.pure _)
  rw [otherwise, if_neg stop]

theorem otherwise_else {test : String} (inside : Yields (stmt · cs) (Q, rest)) :
    Yields (otherwise · test P (elseText ++ cs))
      (.node () (.cond (some (ident test)) (some P) (some Q)), rest) := by
  refine .step (fun n => ?_) (inside.bind (k := fun (no, rest) _ =>
    some (.node () (.cond (some (ident test)) (some P) (some no)), rest)) (.pure _))
  rw [otherwise, if_pos (by rfl)]
  rfl

theorem stmts_nil {gap : List Char} (blank : ∀ c ∈ gap, isBlank c = true) :
    Yields (stmts · (gap ++ '\x7d' :: rest)) ([], rest) := by
  have left : (gap ++ '\x7d' :: rest).dropWhile isBlank = '\x7d' :: rest := by
    rw [List.dropWhile_append_of_pos blank, List.dropWhile_cons_of_neg (by decide)]
  refine .step (fun n => ?_) (.pure _)
  rw [stmts, left]
  rfl

theorem stmts_cons {gap : List Char} (blank : ∀ c ∈ gap, isBlank c = true)
    (start : ∀ c ∈ cs.head?, isBlank c = false ∧ c ≠ '\x7d') {cs' : List Char}
    (first : Yields (stmt · cs) (P, cs')) {others : List (Option Plain)}
    (next : Yields (stmts · cs') (others, rest)) :
    Yields (stmts · (gap ++ cs)) (some P :: others, rest) := by
  have left := (span_append blank fun c mem => (start c mem).1).2
  have other : cs.head? ≠ some '\x7d' := fun same => (start _ same).2 rfl
  refine .step (fun n => ?_) (first.bind (k := fun (first, cs') n => do
    let (others, rest) ← stmts n cs'
    some (some first :: others, rest)) (next.bind (k := fun (others, rest) _ =>
      some (some P :: others, rest)) (.pure _)))
  rw [stmts, left, if_neg other]

end Steps

section Reading

variable {depth : Nat} {P : Plain} {rest : List Char}

theorem IsStmt.starts (own : IsStmt P) (depth : Nat) :
    ∃ c, (source depth P).head? = some c ∧ isBlank c = false ∧ c ≠ '\x7d' := by
  have word {w : String} (word : isWord w = true) (rest : List Char) :
      ∃ c, (w.toList ++ rest).head? = some c ∧ isBlank c = false ∧ c ≠ '\x7d' := by
    obtain ⟨first, all⟩ := isWord_iff.mp word
    cases list : w.toList with
    | nil => simp [list] at first
    | cons c cs =>
      have own := all c (by simp [list])
      refine ⟨c, rfl, ?_⟩
      simp only [isBlank, Bool.or_eq_false_iff, beq_eq_false_iff_ne]
      refine ⟨⟨?_, ?_⟩, ?_⟩ <;> rintro rfl <;> revert own <;> decide
  cases own with
  | exprStmt name =>
    rw [source_exprStmt]
    exact word (isName_iff.mp name).1 _
  | ret =>
    rw [source_ret]
    exact ⟨'r', rfl, by decide⟩
  | @block body =>
    cases body with
    | nil => exact ⟨'\x7b', by rw [List.map_nil, source_block_nil]; rfl, by decide⟩
    | cons first others => exact ⟨'\x7b', by rw [source_block]; rfl, by decide⟩
  | cond =>
    rw [source_cond]
    exact ⟨'i', rfl, by decide⟩

theorem lines_cons (depth : Nat) (first : Plain) (others : List Plain) :
    lines depth (first :: others) =
      List.replicate (4 * depth) ' ' ++ (source depth first ++ '\n' :: lines depth others) := by
  simp [lines]

theorem isBlank_margin (depth : Nat) : ∀ c ∈ List.replicate (4 * depth) ' ', isBlank c = true := by
  intro c mem
  rw [(List.mem_replicate.mp mem).2]
  rfl

theorem isBlank_line : ∀ c ∈ ['\n'], isBlank c = true := List.all_eq_true.mp (by decide)

theorem reads_lines {body : List Plain} (own : ∀ c ∈ body, IsStmt c)
    (reads : ∀ c ∈ body, ∀ rest, (c.isOpen = true → rest.take 6 ≠ elseText) →
      Yields (stmt · (source depth c ++ rest)) (c, rest)) {gap gap' : List Char}
    (blank : ∀ c ∈ gap, isBlank c = true) (blank' : ∀ c ∈ gap', isBlank c = true) :
    Yields (stmts · (gap ++ (lines depth body ++ (gap' ++ '\x7d' :: rest))))
      (body.map some, rest) := by
  have both {gap gap' : List Char} (blank : ∀ c ∈ gap, isBlank c = true)
      (blank' : ∀ c ∈ gap', isBlank c = true) : ∀ c ∈ gap ++ gap', isBlank c = true :=
    fun c mem => (List.mem_append.mp mem).elim (blank c) (blank' c)
  induction body generalizing gap with
  | nil =>
    rw [lines, List.flatMap_nil, List.nil_append, ← List.append_assoc]
    exact stmts_nil (both blank blank')
  | cons first others ih =>
    have later := ih (fun c mem => own c (List.mem_cons_of_mem _ mem))
      (fun c mem => reads c (List.mem_cons_of_mem _ mem)) isBlank_line
    obtain ⟨c, head, start⟩ := (own first List.mem_cons_self).starts depth
    have here := reads first List.mem_cons_self
      ('\n' :: (lines depth others ++ (gap' ++ '\x7d' :: rest))) fun _ => by simp [elseText]
    rw [lines_cons, List.append_assoc, List.append_assoc, ← List.append_assoc]
    refine stmts_cons (both blank (isBlank_margin depth)) (fun d mem => ?_) here later
    rw [List.head?_append, head] at mem
    cases mem
    exact start

/-- The text of a statement without misplaced else branches is read as the statement. -/
theorem IsStmt.reads (own : IsStmt P) (grouped : P.Grouped) (depth : Nat) (rest : List Char)
    (stop : P.isOpen = true → rest.take 6 ≠ elseText) :
    Yields (stmt · (source depth P ++ rest)) (P, rest) := by
  induction own generalizing depth rest with
  | exprStmt name =>
    rw [source_exprStmt, List.append_assoc]
    exact stmt_exprStmt name
  | ret names =>
    rw [source_ret, List.append_assoc, List.append_assoc]
    exact stmt_ret names
  | @block body own ih =>
    have grouped := grouped_block_iff.mp grouped
    have reads (c : Plain) (mem : c ∈ body) (rest : List Char)
        (stop : c.isOpen = true → rest.take 6 ≠ elseText) :
        Yields (stmt · (source (depth + 1) c ++ rest)) (c, rest) :=
      ih c mem (grouped c mem) (depth + 1) rest stop
    cases body with
    | nil =>
      rw [List.map_nil, source_block_nil]
      exact stmt_block (stmts_nil (show ∀ c ∈ [], isBlank c = true from nofun))
    | cons first others =>
      rw [source_block]
      simp only [List.cons_append, List.append_assoc]
      exact stmt_block (reads_lines own reads isBlank_line (isBlank_margin depth))
  | @cond test yes no name own owns ih ihs =>
    obtain ⟨first, second⟩ := grouped_cond_iff.mp grouped
    rw [source_cond]
    simp only [List.cons_append, List.append_assoc]
    -- An open branch would take the else behind it, so the branch before an else must be closed.
    cases no with
    | none =>
      have stop : rest.take 6 ≠ elseText := stop rfl
      exact stmt_cond name (ih first depth rest fun _ => stop) (otherwise_stop stop)
    | some no =>
      obtain ⟨closed, later⟩ := second no rfl
      have behind : yes.isOpen = true →
          (elseText ++ (source depth no ++ rest)).take 6 ≠ elseText := by simp [closed]
      have last := ihs no rfl later depth rest stop
      simp only [Option.elim_some, List.append_assoc]
      exact stmt_cond name (ih first depth _ behind) (otherwise_else last)

theorem IsStmt.ends (own : IsStmt P) (depth : Nat) :
    ∃ c, (source depth P).getLast? = some c ∧ c ≠ '\n' := by
  induction own with
  | exprStmt => exact ⟨';', by simp [source_exprStmt], by decide⟩
  | ret => exact ⟨';', by simp [source_ret, ← List.append_assoc], by decide⟩
  | @block body =>
    cases body with
    | nil => exact ⟨'\x7d', by rw [List.map_nil, source_block_nil]; rfl, by decide⟩
    | cons first others =>
      rw [source_block]
      exact ⟨'\x7d', by simp [List.getLast?_cons], by decide⟩
  | @cond test yes no name own owns ih ihs =>
    rw [source_cond]
    cases no with
    | none =>
      obtain ⟨c, last, other⟩ := ih
      exact ⟨c, by simp [List.getLast?_append, List.getLast?_cons, last], other⟩
    | some no =>
      obtain ⟨c, last, other⟩ := ihs no rfl
      exact ⟨c, by simp [List.getLast?_append, List.getLast?_cons, last], other⟩

theorem IsStmt.toList_program (own : IsStmt P) :
    (Tree.unitText id (.node () (.program [some P]))).toList = source 0 P ++ ['\n'] := by
  have closes : Tree.ClosesLine id [some P] := by
    rintro part ⟨⟩
    exact own.ends 0
  rw [Tree.unitText_of_program rfl closes]
  refine (toList_renderLines 0 [P]).trans ?_
  simp [lines]

/-- Programs of one statement have the same text exactly if their regrouped statements are one. -/
theorem IsStmt.unitText_eq_iff {Q : Plain} (own : IsStmt P) (own' : IsStmt Q) :
    Tree.unitText id (.node () (.program [some P])) =
        Tree.unitText id (.node () (.program [some Q])) ↔ P.regroup = Q.regroup := by
  obtain ⟨stmt, grouped, same⟩ := own.regroup
  obtain ⟨stmt', grouped', same'⟩ := own'.regroup
  have texts : Tree.unitText id (.node () (.program [some P])) =
      Tree.unitText id (.node () (.program [some Q])) ↔
        source 0 P.regroup = source 0 Q.regroup := by
    rw [← String.toList_inj, own.toList_program, own'.toList_program, List.append_left_inj, same,
      same']
  rw [texts]
  constructor
  · intro equal
    have first := stmt.reads grouped 0 ['\n'] fun _ => by decide
    have second := stmt'.reads grouped' 0 ['\n'] fun _ => by decide
    rw [equal] at first
    exact (Prod.mk.inj (first.unique second)).1
  · intro equal
    rw [equal]

end Reading

end Reader

open Reader in
/--
Two statements in a program of their own have the same text exactly if they are the
same once every else is at the branch that its text gives it to. So a statement can
be told from its text if no else stands behind a branch without one.
-/
theorem Store.print_statement_eq_iff {s₁ s₂ : Store} {x₁ x₂ : Nat} {T₁ T₂ : Tree Nat Name}
    {text₁ text₂ : Name → String} (read₁ : s₁.wholeTree x₁ = .ok (.node x₁ (.program [some T₁])))
    (read₂ : s₂.wholeTree x₂ = .ok (.node x₂ (.program [some T₂])))
    (own₁ : IsStmt (T₁.plain text₁)) (own₂ : IsStmt (T₂.plain text₂)) :
    (s₁.print text₁ (some x₁) = s₂.print text₂ (some x₂) ↔
        (T₁.plain text₁).regroup = (T₂.plain text₂).regroup) ∧
      IsStmt (T₁.plain text₁).regroup ∧ (T₁.plain text₁).regroup.Grouped ∧
      ((T₁.plain text₁).Grouped → (T₁.plain text₁).regroup = T₁.plain text₁) ∧
      ∀ names : Names, names.Consistent → text₁ = names.text → text₂ = names.text →
        T₁.NamedIn names → T₂.NamedIn names → (T₁.plain text₁).Grouped → (T₂.plain text₂).Grouped →
        s₁.print text₁ (some x₁) = s₂.print text₂ (some x₂) → T₁.form = T₂.form := by
  have program (text : Name → String) (x : Nat) (T : Tree Nat Name) :
      Tree.plain text (.node x (.program [some T])) =
        .node () (.program [some (T.plain text)]) := by
    rw [Tree.plain_eq]
    rfl
  have printed {s : Store} {x : Nat} {T : Tree Nat Name} (text : Name → String)
      (read : s.wholeTree x = .ok (.node x (.program [some T]))) : s.print text (some x) =
        .ok (Tree.unitText id (.node () (.program [some (T.plain text)]))) := by
    rw [Store.print, read, ← program text x T, Tree.unitText_plain]
    rfl
  have same : s₁.print text₁ (some x₁) = s₂.print text₂ (some x₂) ↔
      (T₁.plain text₁).regroup = (T₂.plain text₂).regroup := by
    rw [printed text₁ read₁, printed text₂ read₂, Except.ok.injEq]
    exact own₁.unitText_eq_iff own₂
  obtain ⟨stmt, grouped, -⟩ := own₁.regroup
  refine ⟨same, stmt, grouped, own₁.regroup_of_grouped, ?_⟩
  intro names consistent left right named₁ named₂ grouped₁ grouped₂ equal
  have plain := same.mp equal
  rw [own₁.regroup_of_grouped grouped₁, own₂.regroup_of_grouped grouped₂, left, right] at plain
  exact Tree.form_eq_of_plain consistent named₁ named₂ plain

namespace Sample

/-- The names of `if (a) if (b) c; else d;`. -/
def branchNames : Names :=
  ["a", "b", "c", "d"].foldl (fun t text => (t.intern text).2) .fresh

def outerStore : Store where
  nodes := #[
    ⟨.ident 1, ⟨0, 0⟩⟩, ⟨.ident 2, ⟨0, 0⟩⟩, ⟨.ident 3, ⟨0, 0⟩⟩, ⟨.exprStmt (some 2), ⟨0, 0⟩⟩,
    ⟨.cond (some 1) (some 3) none, ⟨0, 0⟩⟩, ⟨.ident 4, ⟨0, 0⟩⟩, ⟨.exprStmt (some 5), ⟨0, 0⟩⟩,
    ⟨.cond (some 0) (some 4) (some 6), ⟨0, 0⟩⟩, ⟨.program ⟨0, 1⟩, ⟨0, 0⟩⟩]
  lists := #[some 7]

def innerStore : Store where
  nodes := #[
    ⟨.ident 1, ⟨0, 0⟩⟩, ⟨.ident 2, ⟨0, 0⟩⟩, ⟨.ident 3, ⟨0, 0⟩⟩, ⟨.exprStmt (some 2), ⟨0, 0⟩⟩,
    ⟨.ident 4, ⟨0, 0⟩⟩, ⟨.exprStmt (some 4), ⟨0, 0⟩⟩, ⟨.cond (some 1) (some 3) (some 5), ⟨0, 0⟩⟩,
    ⟨.cond (some 0) (some 6) none, ⟨0, 0⟩⟩, ⟨.program ⟨0, 1⟩, ⟨0, 0⟩⟩]
  lists := #[some 7]

def outerTree : Tree Nat Name :=
  .node 7 (.cond (some (.node 0 (.ident 1)))
    (some (.node 4 (.cond (some (.node 1 (.ident 2)))
      (some (.node 3 (.exprStmt (some (.node 2 (.ident 3)))))) none)))
    (some (.node 6 (.exprStmt (some (.node 5 (.ident 4)))))))

def innerTree : Tree Nat Name :=
  .node 7 (.cond (some (.node 0 (.ident 1)))
    (some (.node 6 (.cond (some (.node 1 (.ident 2)))
      (some (.node 3 (.exprStmt (some (.node 2 (.ident 3))))))
      (some (.node 5 (.exprStmt (some (.node 4 (.ident 4)))))))))
    none)

open Reader

theorem outerTree_isStmt : IsStmt (outerTree.plain branchNames.text) :=
  .cond (by decide +kernel) (.cond (by decide +kernel) (.exprStmt (by decide +kernel)) nofun)
    fun c mem => by
      cases mem
      exact .exprStmt (by decide +kernel)

theorem innerTree_isStmt : IsStmt (innerTree.plain branchNames.text) := by
  refine .cond (by decide +kernel) ?_ nofun
  refine .cond (by decide +kernel) (.exprStmt (by decide +kernel)) ?_
  rintro c ⟨⟩
  exact .exprStmt (by decide +kernel)

end Sample

/-- An else behind two branches: once regrouped, it is the inner one that has it. -/
theorem Store.print_statement_eq_iff_sample :
    Sample.outerStore.wholeTree 8 = .ok (.node 8 (.program [some Sample.outerTree])) ∧
      Sample.innerStore.wholeTree 8 = .ok (.node 8 (.program [some Sample.innerTree])) ∧
      (Sample.outerTree.plain Sample.branchNames.text).regroup =
        (Sample.innerTree.plain Sample.branchNames.text).regroup := by
  have outer : Sample.outerStore.wholeTree 8 =
      .ok (.node 8 (.program [some Sample.outerTree])) := rfl
  have inner : Sample.innerStore.wholeTree 8 =
      .ok (.node 8 (.program [some Sample.innerTree])) := rfl
  have both := Store.print_statement_eq_iff outer inner Sample.outerTree_isStmt
    Sample.innerTree_isStmt
  exact ⟨outer, inner, both.1.mp (by decide +kernel)⟩

/-- Where the else belongs cannot be seen in the text. -/
theorem Store.print_statement_ambiguous :
    Reader.IsStmt (Sample.outerTree.plain Sample.branchNames.text) ∧
      Reader.IsStmt (Sample.innerTree.plain Sample.branchNames.text) ∧
      Sample.outerStore.wholeTree 8 = .ok (.node 8 (.program [some Sample.outerTree])) ∧
      Sample.innerStore.wholeTree 8 = .ok (.node 8 (.program [some Sample.innerTree])) ∧
      Sample.outerStore.print Sample.branchNames.text (some 8) = .ok "if (a) if (b) c; else d;\n" ∧
      Sample.innerStore.print Sample.branchNames.text (some 8) = .ok "if (a) if (b) c; else d;\n" ∧
      Sample.outerTree.form ≠ Sample.innerTree.form := by
  refine ⟨Sample.outerTree_isStmt, Sample.innerTree_isStmt, rfl, rfl, by decide +kernel,
    by decide +kernel, fun same => ?_⟩
  injection same with _ kinds
  injection kinds with _ _ last
  cases last

end BigLower
