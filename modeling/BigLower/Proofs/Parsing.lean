import BigLower.Proofs.Quoting
import BigLower.Proofs.Renaming

/-! # Reading expressions

A reader for the text of expressions, by precedence climbing: first an operand is
read, then whatever can follow it within the limit of the place. Operators stand
between blanks, so the next one can be seen before it is decided whether it
belongs to the place.
-/

namespace BigLower

namespace Reader

/-- What is read: a tree without tags, with texts for names. -/
abbrev Plain := Tree Unit String

/-! ## Words and numbers -/

def delimiters : List Char :=
  [' ', '\n', '"', '.', ',', ';', '(', ')', '[', ']', '\x7b', '\x7d', '+', '-', '*', '/', '%', '<',
    '>', '&', '|', '^', '=', '!', '?', '~']

def isWordChar (c : Char) : Bool := !delimiters.contains c

def isWordStart (c : Char) : Bool := isWordChar c && !c.isDigit

/-- The words that have another meaning than a name in an expression. -/
def reserved : List String := ["true", "false", "null", "typeof", "void", "in", "instanceof"]

def isWord (text : String) : Bool :=
  text.toList.head?.any isWordStart && text.toList.all isWordChar

def isIdentifier (text : String) : Bool := isWord text && !reserved.contains text

def isDigits (text : String) : Bool := !text.isEmpty && text.toList.all Char.isDigit

def isNumeral (text : String) : Bool :=
  text.toList.head?.any Char.isDigit &&
    match text.toList.dropWhile Char.isDigit with
    | [] => true
    | c :: fraction => c == '.' && fraction.all Char.isDigit

/-- Read a number: a point belongs to it unless it is that of a member. -/
def numeral (cs : List Char) : Plain × List Char :=
  let digits := cs.takeWhile Char.isDigit
  let rest := cs.dropWhile Char.isDigit
  if rest.head? = some 'n' then
    (.node () (.bigInt (String.ofList digits)), rest.tail)
  else if rest.head? = some '.' && !rest.tail.head?.any isWordStart then
    (.node () (.number (String.ofList (digits ++ '.' :: rest.tail.takeWhile Char.isDigit))),
      rest.tail.dropWhile Char.isDigit)
  else
    (.node () (.number (String.ofList digits)), rest)

def ofWord (word : String) : Plain :=
  .node () (if word = "true" then .bool true else if word = "false" then .bool false
    else if word = "null" then .null else .ident word)

def atom (cs : List Char) : Plain × List Char :=
  if cs.head?.any Char.isDigit then numeral cs
  else (ofWord (String.ofList (cs.takeWhile isWordChar)), cs.dropWhile isWordChar)

def dropBlank (cs : List Char) : List Char :=
  if cs.head? = some ' ' then cs.tail else cs

def dropComma (cs : List Char) : List Char :=
  if cs.take 2 = [',', ' '] then cs.drop 2 else cs

def unaryOp? (cs : List Char) : Option (UnaryOp × List Char) :=
  let word := cs.takeWhile isWordChar
  let symbol := if word.isEmpty then cs.take 1 else word
  (UnaryOp.ofSymbol? (String.ofList symbol)).map fun op => (op, dropBlank (cs.drop symbol.length))

def names? (name : List Char) : List Char → Option (List String × List Char)
  | [] => none
  | ')' :: rest => some ([String.ofList name], rest)
  | ',' :: ' ' :: rest =>
    (names? [] rest).map fun (names, rest) => (String.ofList name :: names, rest)
  | c :: rest => if isWordChar c then names? (name ++ [c]) rest else none

def params? (cs : List Char) : Option (List String × List Char) := do
  let (names, rest) ← if cs.head? = some ')' then some ([], cs.tail) else names? [] cs
  if rest.take 4 = [' ', '=', '>', ' '] then some (names, rest.drop 4) else none

/-! ## Operators between two operands -/

inductive Joint where
  | binary (op : BinaryOp)
  | assign (op : AssignOp)

namespace Joint

def symbol : Joint → String
  | binary op => op.symbol
  | assign op => op.symbol

/-- How loosely the operator binds. -/
def level : Joint → Nat
  | binary op => op.precedence
  | assign _ => Tree.looseLevel

def leftLimit : Joint → Nat
  | binary op => Tree.leftLimit op
  | assign _ => Tree.primaryLevel

def rightLimit : Joint → Nat
  | binary op => Tree.rightLimit op
  | assign _ => Tree.looseLevel

def join {ν σ ρ : Type} (left right : σ) : Joint → Kind ν σ ρ
  | binary op => .binary op left right
  | assign op => .assign op left right

def ofSymbol? (text : String) : Option Joint :=
  match BinaryOp.ofSymbol? text with
  | some op => some (binary op)
  | none => (AssignOp.ofSymbol? text).map assign

end Joint

def joint? (cs : List Char) : Option Joint :=
  Joint.ofSymbol? (String.ofList (cs.takeWhile (· != ' ')))

/-! ## Expressions -/

def arrow (names : List String) (body : Plain) : Plain :=
  .node () (.arrow (names.map fun name => some (.node () (.param name))) (some body))

mutual

/-- Read an expression in a place with a limit. -/
def expr : Nat → Nat → List Char → Option (Plain × List Char)
  | 0, _, _ => none
  | fuel + 1, limit, cs =>
    if cs.head? = some '"' then do
      let (content, rest) ← Quoted.decode cs
      after fuel limit (.node () (.str (String.ofList content))) rest
    else if cs.head? = some '[' then do
      let (elements, rest) ← items fuel ']' cs.tail
      after fuel limit (.node () (.array elements)) rest
    else if cs.head? = some '(' then
      match params? cs.tail with
      | some (names, rest) => do
        let (body, rest) ← expr fuel Tree.looseLevel rest
        after fuel limit (arrow names body) rest
      | none => do
        let (inner, rest) ← expr fuel Tree.looseLevel cs.tail
        if rest.head? = some ')' then after fuel limit inner rest.tail else none
    else
      match unaryOp? cs with
      | some (op, rest) => do
        let (operand, rest) ← expr fuel Tree.unaryLevel rest
        after fuel limit (.node () (.unary op (some operand))) rest
      | none => after fuel limit (atom cs).1 (atom cs).2

/-- Read what follows an expression, as far as it belongs to a place with a limit. -/
def after : Nat → Nat → Plain → List Char → Option (Plain × List Char)
  | 0, _, _, _ => none
  | fuel + 1, limit, first, cs =>
    if cs.head? = some '.' then
      after fuel limit
        (.node () (.member (some first) (String.ofList (cs.tail.takeWhile isWordChar))))
        (cs.tail.dropWhile isWordChar)
    else if cs.head? = some '(' then do
      let (args, rest) ← items fuel ')' cs.tail
      after fuel limit (.node () (.call (some first) args)) rest
    else if cs.head? = some ' ' then
      match joint? cs.tail with
      | none => some (first, cs)
      | some op =>
        if op.level ≤ limit then do
          let (second, rest) ← expr fuel op.rightLimit (dropBlank (cs.tail.dropWhile (· != ' ')))
          after fuel limit (.node () (op.join (some first) (some second))) rest
        else some (first, cs)
    else some (first, cs)

def items : Nat → Char → List Char → Option (List (Option Plain) × List Char)
  | 0, _, _ => none
  | fuel + 1, close, cs =>
    if cs.head? = some close then some ([], cs.tail)
    else do
      let (entry, rest) ← expr fuel Tree.looseLevel cs
      let (entries, rest) ← items fuel close (dropComma rest)
      some (some entry :: entries, rest)

end

/-! ## Where words end -/

section Words

variable {p : Char → Bool} {w rest : List Char}

theorem span_append (all : ∀ c ∈ w, p c = true) (ends : ∀ c ∈ rest.head?, p c = false) :
    (w ++ rest).takeWhile p = w ∧ (w ++ rest).dropWhile p = rest := by
  have stop : rest.takeWhile p = [] ∧ rest.dropWhile p = rest := by
    cases rest with
    | nil => exact ⟨rfl, rfl⟩
    | cons c rest =>
      have other : p c = false := ends c rfl
      simp [other]
  rw [List.takeWhile_append_of_pos all, List.dropWhile_append_of_pos all, stop.1, stop.2]
  exact ⟨List.append_nil w, rfl⟩

theorem isWordChar_of_isDigit {c : Char} (digit : c.isDigit = true) : isWordChar c = true := by
  have others : delimiters.all (!·.isDigit) = true := by decide
  by_contra delimiter
  simp only [isWordChar, Bool.not_eq_true', Bool.not_eq_false, List.contains_iff_mem] at delimiter
  have other := List.all_eq_true.mp others c delimiter
  simp [digit] at other

/-- What can stand behind an expression: no word goes on, and a point is that of a member. -/
structure Follows (rest : List Char) : Prop where
  word : ∀ c ∈ rest.head?, isWordChar c = false
  point : rest.head? = some '.' → rest.tail.head?.any isWordStart = true

theorem follows_cons {c : Char} (delimiter : isWordChar c = false) (other : c ≠ '.') :
    Follows (c :: rest) where
  word d mem := by
    cases mem
    exact delimiter
  point same := (other (Option.some.inj same)).elim

theorem Follows.digit (h : Follows rest) : ∀ c ∈ rest.head?, c.isDigit = false := by
  intro c mem
  by_contra digit
  have word := isWordChar_of_isDigit (by simpa using digit)
  simp [h.word c mem] at word

theorem Follows.head?_ne (h : Follows rest) {c : Char} (word : isWordChar c = true) :
    rest.head? ≠ some c := by
  intro same
  simp [h.word c same] at word

end Words

/-! ## Results for enough fuel -/

/-- With enough fuel there is a result, and it is this one. -/
def Yields {β : Type} (f : Nat → Option β) (b : β) : Prop :=
  ∃ n, ∀ m, n ≤ m → f m = some b

namespace Yields

variable {β γ : Type} {f g : Nat → Option β} {b b' : β}

theorem unique (h : Yields f b) (h' : Yields f b') : b = b' := by
  obtain ⟨n, all⟩ := h
  obtain ⟨n', all'⟩ := h'
  have same := (all (max n n') (Nat.le_max_left ..)).symm.trans (all' _ (Nat.le_max_right ..))
  exact Option.some.inj same

/-- One unit of fuel is used for a step. -/
theorem step (same : ∀ n, f (n + 1) = g n) (h : Yields g b) : Yields f b := by
  obtain ⟨n, all⟩ := h
  refine ⟨n + 1, fun m le => ?_⟩
  obtain ⟨k, rfl⟩ : ∃ k, m = k + 1 := ⟨m - 1, by omega⟩
  rw [same, all k (by omega)]

theorem bind {k : β → Nat → Option γ} {c : γ} (first : Yields f b) (second : Yields (k b) c) :
    Yields (fun n => f n >>= fun a => k a n) c := by
  obtain ⟨n, all⟩ := first
  obtain ⟨n', all'⟩ := second
  refine ⟨max n n', fun m le => ?_⟩
  have here := all m (by omega)
  have there := all' m (by omega)
  simp [here, there]

theorem pure (b : β) : Yields (fun _ => some b) b :=
  ⟨0, fun _ _ => rfl⟩

end Yields

section Steps

-- Each lemma below takes one step of one of the three readers.
attribute [local simp] expr after items

variable {limit : Nat} {cs rest : List Char} {result : Plain × List Char}

def Bare (cs : List Char) : Prop :=
  cs.head? ≠ some '"' ∧ cs.head? ≠ some '[' ∧ cs.head? ≠ some '('

theorem expr_str {s : String} (next : Yields (after · limit (.node () (.str s)) rest) result) :
    Yields (expr · limit ((Quoted.literal s).toList ++ rest)) result := by
  refine .step (fun n => ?_) next
  have read := Quoted.decode_encode_append s.toList rest
  have text : (Quoted.literal s).toList = Quoted.encode s.toList := String.toList_ofList
  rw [text, expr, if_pos (by rfl), read]
  simp

theorem expr_array {elements : List (Option Plain)}
    (entries : Yields (items · ']' cs) (elements, rest))
    (next : Yields (after · limit (.node () (.array elements)) rest) result) :
    Yields (expr · limit ('[' :: cs)) result := by
  refine .step (fun n => ?_) (entries.bind (k := fun (elements, rest) n =>
    after n limit (.node () (.array elements)) rest) next)
  simp

theorem expr_paren {inner : Plain} (none : params? cs = none)
    (inside : Yields (expr · Tree.looseLevel cs) (inner, ')' :: rest))
    (next : Yields (after · limit inner rest) result) :
    Yields (expr · limit ('(' :: cs)) result := by
  refine .step (fun n => ?_) (inside.bind (k := fun (inner, rest) n =>
    if rest.head? = some ')' then after n limit inner rest.tail else Option.none) next)
  simp [none]

theorem expr_arrow {names : List String} {body : Plain} {cs' : List Char}
    (params : params? cs = some (names, cs'))
    (inside : Yields (expr · Tree.looseLevel cs') (body, rest))
    (next : Yields (after · limit (arrow names body) rest) result) :
    Yields (expr · limit ('(' :: cs)) result := by
  refine .step (fun n => ?_) (inside.bind (k := fun (body, rest) n =>
    after n limit (arrow names body) rest) next)
  simp [params]

theorem expr_unary (bare : Bare cs) {op : UnaryOp} {cs' : List Char} {operand : Plain}
    (found : unaryOp? cs = some (op, cs'))
    (inside : Yields (expr · Tree.unaryLevel cs') (operand, rest))
    (next : Yields (after · limit (.node () (.unary op (some operand))) rest) result) :
    Yields (expr · limit cs) result := by
  refine .step (fun n => ?_) (inside.bind (k := fun (operand, rest) n =>
    after n limit (.node () (.unary op (some operand))) rest) next)
  simp [bare.1, bare.2.1, bare.2.2, found]

theorem expr_atom (bare : Bare cs) (none : unaryOp? cs = none) {e : Plain}
    (read : atom cs = (e, rest)) (next : Yields (after · limit e rest) result) :
    Yields (expr · limit cs) result := by
  refine .step (fun n => ?_) next
  simp [bare.1, bare.2.1, bare.2.2, none, read]

variable {first : Plain}

theorem after_member {property : String} (all : property.toList.all isWordChar = true)
    (ends : ∀ c ∈ rest.head?, isWordChar c = false)
    (next : Yields (after · limit (.node () (.member (some first) property)) rest) result) :
    Yields (after · limit first ('.' :: (property.toList ++ rest))) result := by
  refine .step (fun n => ?_) next
  obtain ⟨taken, left⟩ := span_append (List.all_eq_true.mp all) ends
  simp [taken, left]

theorem after_call {args : List (Option Plain)} (entries : Yields (items · ')' cs) (args, rest))
    (next : Yields (after · limit (.node () (.call (some first) args)) rest) result) :
    Yields (after · limit first ('(' :: cs)) result := by
  refine .step (fun n => ?_) (entries.bind (k := fun (args, rest) n =>
    after n limit (.node () (.call (some first) args)) rest) next)
  simp

/-- How loosely that binds which comes next; the text may also be at an end. -/
def nextLevel (cs : List Char) : Nat :=
  if cs.head? = some '.' ∨ cs.head? = some '(' then Tree.primaryLevel
  else if cs.head? = some ' ' then (joint? cs.tail).elim (Tree.looseLevel + 1) Joint.level
  else Tree.looseLevel + 1

/-- What binds too loosely does not belong to the place. -/
theorem after_stop (stop : limit < nextLevel rest) :
    Yields (after · limit first rest) (first, rest) := by
  refine .step (fun n => ?_) (.pure (first, rest))
  unfold nextLevel at stop
  split at stop
  · exact (Nat.not_lt_zero _ stop).elim
  · rename_i other
    obtain ⟨point, call⟩ := not_or.mp other
    rw [after, if_neg point, if_neg call]
    split at stop
    · rename_i blank
      rw [if_pos blank]
      cases next : joint? rest.tail with
      | none => rfl
      | some op =>
        have looser : ¬ op.level ≤ limit := by simpa [next] using stop
        simp only [if_neg looser]
    · rename_i blank
      rw [if_neg blank]

theorem joint?_symbol (op : Joint) (cs : List Char) :
    joint? (op.symbol.toList ++ ' ' :: cs) = some op ∧
      dropBlank ((op.symbol.toList ++ ' ' :: cs).dropWhile (· != ' ')) = cs := by
  have free : ∀ c ∈ op.symbol.toList, (c != ' ') = true := by
    refine List.all_eq_true.mp ?_
    cases op with
    | binary op => cases op <;> decide
    | assign op => cases op <;> decide
  have ends : ∀ c ∈ (' ' :: cs).head?, (c != ' ') = false := by simp
  obtain ⟨taken, left⟩ := span_append (p := (· != ' ')) free ends
  have known : Joint.ofSymbol? op.symbol = some op := by
    cases op with
    | binary op => simp [Joint.ofSymbol?, Joint.symbol]
    | assign op =>
      have other : BinaryOp.ofSymbol? op.symbol = none := by cases op <;> decide
      simp [Joint.ofSymbol?, Joint.symbol, other]
  unfold joint? dropBlank
  rw [taken, left, String.ofList_toList, known]
  simp

theorem after_joint {op : Joint} (within : op.level ≤ limit) {second : Plain}
    (inside : Yields (expr · op.rightLimit cs) (second, rest))
    (next : Yields (after · limit (.node () (op.join (some first) (some second))) rest) result) :
    Yields (after · limit first (' ' :: (op.symbol.toList ++ ' ' :: cs))) result := by
  obtain ⟨found, left⟩ := joint?_symbol op cs
  refine .step (fun n => ?_) (inside.bind (k := fun (second, rest) n =>
    after n limit (.node () (op.join (some first) (some second))) rest) next)
  simp [found, left, within]

theorem nextLevel_joint (op : Joint) (cs : List Char) :
    nextLevel (' ' :: (op.symbol.toList ++ ' ' :: cs)) = op.level := by
  simp [nextLevel, (joint?_symbol op cs).1]

theorem items_nil (close : Char) (rest : List Char) :
    Yields (items · close (close :: rest)) ([], rest) := by
  refine .step (fun n => ?_) (.pure _)
  simp

theorem items_cons {close : Char} {entry : Plain} {entries : List (Option Plain)} {cs' : List Char}
    (other : cs.head? ≠ some close) (inside : Yields (expr · Tree.looseLevel cs) (entry, cs'))
    (others : Yields (items · close (dropComma cs')) (entries, rest)) :
    Yields (items · close cs) (some entry :: entries, rest) := by
  refine .step (fun n => ?_) (inside.bind (k := fun (entry, cs') n => do
    let (entries, rest) ← items n close (dropComma cs')
    some (some entry :: entries, rest)) (others.bind (k := fun (entries, rest) _ =>
      some (some entry :: entries, rest)) (.pure _)))
  simp [other]

end Steps

/-! ## Words, numbers and signs read back -/

section Atoms

variable {rest : List Char} {text : String}

theorem isDigits_iff : isDigits text = true ↔
    text.toList ≠ [] ∧ ∀ c ∈ text.toList, c.isDigit = true := by
  simp [isDigits]

theorem exists_of_isNumeral (h : isNumeral text = true) :
    ∃ whole fraction : List Char, whole ≠ [] ∧ (∀ c ∈ whole, c.isDigit = true) ∧
      (∀ c ∈ fraction, c.isDigit = true) ∧
      (text.toList = whole ∨ text.toList = whole ++ '.' :: fraction) := by
  obtain ⟨first, others⟩ := Bool.and_eq_true_iff.mp h
  have split := List.takeWhile_append_dropWhile (p := Char.isDigit) (l := text.toList)
  have digits : ∀ c ∈ text.toList.takeWhile Char.isDigit, c.isDigit = true :=
    List.all_eq_true.mp List.all_takeWhile
  have filled : text.toList.takeWhile Char.isDigit ≠ [] := by
    cases list : text.toList with
    | nil => simp [list] at first
    | cons c cs =>
      have digit : c.isDigit = true := by simpa [list] using first
      simp [digit]
  cases behind : text.toList.dropWhile Char.isDigit with
  | nil =>
    rw [behind, List.append_nil] at split
    exact ⟨_, [], filled, digits, nofun, .inl split.symm⟩
  | cons c fraction =>
    rw [behind] at others split
    obtain ⟨point, more⟩ := Bool.and_eq_true_iff.mp others
    rw [eq_of_beq point] at split
    exact ⟨_, fraction, filled, digits, List.all_eq_true.mp more, .inr split.symm⟩

theorem head?_any_append {p : Char → Bool} {w : List Char} (h : w.head?.any p = true) :
    (w ++ rest).head?.any p = true := by
  cases w with
  | nil => cases h
  | cons c w => exact h

theorem head?_any_of_all {p : Char → Bool} {w : List Char} (filled : w ≠ [])
    (all : ∀ c ∈ w, p c = true) : (w ++ rest).head?.any p = true := by
  cases w with
  | nil => exact (filled rfl).elim
  | cons c w => simp [all c List.mem_cons_self]

theorem atom_bigInt (h : isDigits text = true) :
    atom (text.toList ++ 'n' :: rest) = (.node () (.bigInt text), rest) := by
  obtain ⟨filled, digits⟩ := isDigits_iff.mp h
  have ends : ∀ c ∈ ('n' :: rest).head?, c.isDigit = false := by simp
  obtain ⟨taken, left⟩ := span_append digits ends
  rw [atom, if_pos (head?_any_of_all filled digits), numeral, taken, left]
  simp

theorem atom_number (h : isNumeral text = true) (follows : Follows rest) :
    atom (text.toList ++ rest) = (.node () (.number text), rest) := by
  obtain ⟨whole, fraction, filled, digits, digits', same | same⟩ := exists_of_isNumeral h
  · obtain ⟨taken, left⟩ := span_append (p := Char.isDigit) digits follows.digit
    have behind : ¬ (rest.head? = some '.' && !rest.tail.head?.any isWordStart) = true := by
      intro both
      obtain ⟨point, other⟩ := Bool.and_eq_true_iff.mp both
      rw [follows.point (of_decide_eq_true point)] at other
      cases other
    rw [same, atom, if_pos (head?_any_of_all filled digits), numeral, taken, left,
      if_neg (follows.head?_ne (by decide)), if_neg behind, ← same, String.ofList_toList]
  · have ends : ∀ c ∈ ('.' :: (fraction ++ rest)).head?, c.isDigit = false := by simp
    obtain ⟨taken, left⟩ := span_append digits ends
    obtain ⟨taken', left'⟩ := span_append (p := Char.isDigit) digits' follows.digit
    have behind : (fraction ++ rest).head?.any isWordStart = false := by
      cases fraction with
      | nil =>
        cases head : rest.head? with
        | none => simp [head]
        | some c => simp [head, isWordStart, follows.word c head]
      | cons c fraction => simp [isWordStart, digits' c List.mem_cons_self]
    have fractional : (('.' :: (fraction ++ rest)).head? = some '.' &&
        !('.' :: (fraction ++ rest)).tail.head?.any isWordStart) = true := by
      rw [List.tail_cons, behind]
      rfl
    rw [same, List.append_assoc, List.cons_append, atom,
      if_pos (head?_any_of_all filled digits), numeral, taken, left, if_neg (by simp),
      if_pos fractional, List.tail_cons, taken', left', ← same, String.ofList_toList]

theorem isWord_iff : isWord text = true ↔
    text.toList.head?.any isWordStart = true ∧ ∀ c ∈ text.toList, isWordChar c = true := by
  simp [isWord]

theorem atom_word (h : isWord text = true) (ends : ∀ c ∈ rest.head?, isWordChar c = false) :
    atom (text.toList ++ rest) = (ofWord text, rest) := by
  obtain ⟨first, all⟩ := isWord_iff.mp h
  obtain ⟨taken, left⟩ := span_append all ends
  have start : (text.toList ++ rest).head?.any Char.isDigit = false := by
    cases list : text.toList with
    | nil => simp [list] at first
    | cons c cs =>
      have own : isWordStart c = true := by simpa [list] using first
      simp only [isWordStart, Bool.and_eq_true, Bool.not_eq_true'] at own
      simp [own.2]
  rw [atom, start, if_neg Bool.false_ne_true, taken, left, String.ofList_toList]

theorem bare_of_word {w : List Char} (filled : w ≠ []) (all : ∀ c ∈ w, isWordChar c = true) :
    Bare (w ++ rest) := by
  cases w with
  | nil => exact (filled rfl).elim
  | cons c w =>
    have own := all c List.mem_cons_self
    refine ⟨?_, ?_, ?_⟩ <;> rintro ⟨⟩ <;> revert own <;> decide

theorem symbol_of_ofSymbol? {op : UnaryOp} (found : UnaryOp.ofSymbol? text = some op) :
    op.symbol = text :=
  eq_of_beq (List.find?_some (p := fun op : UnaryOp => op.symbol == text) found)

/-- Of the words, only two are operators. -/
theorem unaryOp?_word {w : List Char} (filled : w ≠ []) (all : ∀ c ∈ w, isWordChar c = true)
    (ends : ∀ c ∈ rest.head?, isWordChar c = false)
    (other : String.ofList w ≠ "typeof" ∧ String.ofList w ≠ "void") :
    unaryOp? (w ++ rest) = none := by
  have taken := (span_append all ends).1
  have none : UnaryOp.ofSymbol? (String.ofList w) = none := by
    cases found : UnaryOp.ofSymbol? (String.ofList w) with
    | none => rfl
    | some op =>
      have same := symbol_of_ofSymbol? found
      have inside : op.symbol.toList.all isWordChar = true := by
        rw [same, String.toList_ofList]
        exact List.all_eq_true.mpr all
      revert inside
      cases op with
      | typeOf => exact (other.1 same.symm).elim
      | void => exact (other.2 same.symm).elim
      | neg | plus | not | bitNot => decide
  have empty : w.isEmpty = false := by simpa using filled
  simp [unaryOp?, taken, empty, none]

theorem bare_symbol (op : UnaryOp) (rest : List Char) : Bare (op.symbol.toList ++ rest) := by
  have own : ∃ c, op.symbol.toList.head? = some c ∧ c ∉ ['"', '[', '('] := by
    cases op <;> exact ⟨_, rfl, by decide⟩
  obtain ⟨c, first, other⟩ := own
  simp only [List.mem_cons, not_or] at other
  simp [Bare, List.head?_append, first, other]

theorem unaryOp?_symbol (op : UnaryOp) {gap cs : List Char} (blank : cs.head? ≠ some ' ')
    (spaced : gap = [' '] ∨ gap = [] ∧ op.isKeyword = false) :
    unaryOp? (op.symbol.toList ++ (gap ++ cs)) = some (op, cs) := by
  have dropped : dropBlank (gap ++ cs) = cs := by
    rcases spaced with rfl | ⟨rfl, -⟩
    · rfl
    · simp [dropBlank, blank]
  have sign {c : Char} (symbol : op.symbol.toList = [c]) (other : isWordChar c = false) :
      unaryOp? (op.symbol.toList ++ (gap ++ cs)) = some (op, cs) := by
    have known : UnaryOp.ofSymbol? (String.ofList [c]) = some op := by
      rw [← symbol, String.ofList_toList]
      exact UnaryOp.ofSymbol?_symbol op
    have empty : (c :: (gap ++ cs)).takeWhile isWordChar = [] := by simp [other]
    rw [symbol, List.singleton_append, unaryOp?, empty]
    simp only [List.isEmpty_nil, if_true, List.take_succ_cons, List.take_zero, known,
      Option.map_some, List.length_singleton, List.drop_succ_cons, List.drop_zero, dropped]
  have word (keyword : op.isKeyword = true) (filled : op.symbol.toList ≠ [])
      (all : ∀ c ∈ op.symbol.toList, isWordChar c = true) :
      unaryOp? (op.symbol.toList ++ (gap ++ cs)) = some (op, cs) := by
    have gap' : gap = [' '] := by
      rcases spaced with same | ⟨-, no⟩
      · exact same
      · simp [keyword] at no
    subst gap'
    have ends : ∀ c ∈ (' ' :: cs).head?, isWordChar c = false := by
      intro c mem
      cases mem
      decide
    have taken := (span_append all ends).1
    have empty : op.symbol.toList.isEmpty = false := by simpa using filled
    simp only [unaryOp?, List.singleton_append, taken, empty, Bool.false_eq_true, if_false,
      String.ofList_toList, UnaryOp.ofSymbol?_symbol, Option.map_some, List.drop_left]
    rfl
  cases op with
  | neg | plus | not | bitNot => exact sign rfl (by decide)
  | typeOf | void => exact word rfl (by decide) (List.all_eq_true.mp (by decide))

end Atoms

/-! ## Parameters read back -/

section Parameters

variable {w name rest : List Char}

theorem names?_word (all : ∀ c ∈ w, isWordChar c = true) :
    names? name (w ++ rest) = names? (name ++ w) rest := by
  induction w generalizing name with
  | nil => simp
  | cons d w ih =>
    have own := all d List.mem_cons_self
    have inner : names? (name ++ [d]) (w ++ rest) = names? (name ++ [d] ++ w) rest :=
      ih fun e mem => all e (List.mem_cons_of_mem d mem)
    rw [List.cons_append, names?.eq_def]
    split
    · simp_all
    · simp_all [isWordChar, delimiters]
    · simp_all [isWordChar, delimiters]
    · simp_all

theorem names?_stop (all : ∀ c ∈ w, isWordChar c = true) {c : Char}
    (delimiter : isWordChar c = false) (other : c ≠ ')' ∧ c ≠ ',') :
    names? name (w ++ c :: rest) = none := by
  rw [names?_word all, names?.eq_def]
  split <;> simp_all

def commas : List (List Char) → List Char
  | [] => []
  | first :: others => first ++ others.flatMap fun text => ',' :: ' ' :: text

theorem names?_commas {first : String} {others : List String}
    (words : ∀ name ∈ first :: others, isWord name = true) :
    names? [] (commas ((first :: others).map String.toList) ++ ')' :: rest) =
      some (first :: others, rest) := by
  induction others generalizing first with
  | nil =>
    have all := (isWord_iff.mp (words first List.mem_cons_self)).2
    simp [commas, names?_word all, names?]
  | cons second others ih =>
    have all := (isWord_iff.mp (words first List.mem_cons_self)).2
    have inner := ih fun name mem => words name (List.mem_cons_of_mem first mem)
    simp only [commas, List.map_cons, List.flatMap_cons, List.append_assoc,
      List.cons_append] at inner ⊢
    rw [names?_word all, names?, inner]
    simp

theorem params?_commas {names : List String} (words : ∀ name ∈ names, isWord name = true) :
    params? (commas (names.map String.toList) ++ ')' :: ' ' :: '=' :: '>' :: ' ' :: rest) =
      some (names, rest) := by
  cases names with
  | nil => simp [params?, commas]
  | cons first others =>
    have start : (commas ((first :: others).map String.toList) ++
        ')' :: ' ' :: '=' :: '>' :: ' ' :: rest).head? ≠ some ')' := by
      obtain ⟨own, -⟩ := isWord_iff.mp (words first List.mem_cons_self)
      cases list : first.toList with
      | nil => simp [list] at own
      | cons c cs =>
        have word : isWordStart c = true := by simpa [list] using own
        simp only [commas, List.map_cons, list, List.cons_append, List.head?_cons]
        rintro ⟨⟩
        revert word
        decide
    rw [params?, if_neg start, names?_commas words]
    rfl

end Parameters

end Reader

end BigLower
