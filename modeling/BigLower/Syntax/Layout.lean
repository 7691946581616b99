import BigLower.Syntax.Quoted
import BigLower.Syntax.Tree

/-! # Source text

The source text of a tree: one statement per line, blocks indented by four
blanks, and an expression in parentheses exactly where it would otherwise bind
looser than its place allows. Every place has a limit, the loosest level that may
stand there bare, and every expression has a level.
-/

namespace BigLower

namespace Tree

variable {α ν : Type}

/-! ## Levels -/

/-- The level of names, literals, members, calls, arrays and all statements. -/
def primaryLevel : Nat := 0

def unaryLevel : Nat := 1

/-- The level of assignments and functions, and the limit where everything may stand bare. -/
def looseLevel : Nat := 16

/-- How loosely a node of this kind binds. -/
def level {σ ρ : Type} : Kind ν σ ρ → Nat
  | .binary op _ _ => op.precedence
  | .unary _ _ => unaryLevel
  | .assign .. | .arrow .. => looseLevel
  | _ => primaryLevel

/-- The limit for the left operand: an operator that groups to the right takes only primaries. -/
def leftLimit (op : BinaryOp) : Nat :=
  if op.isRightAssoc then primaryLevel else op.precedence

/-- The limit for the right operand: it may repeat the operator only if that groups to the right. -/
def rightLimit (op : BinaryOp) : Nat :=
  if op.isRightAssoc then op.precedence else op.precedence - 1

/-- The blank between a unary operator and its operand: after a word, and between two equal signs. -/
def unaryGap (op : UnaryOp) : Part α ν → String
  | some (.node _ (.unary inner _)) => if op.isKeyword || inner = op then " " else ""
  | _ => if op.isKeyword then " " else ""

def parenthesize (asked : Bool) (text : String) : String :=
  if asked then "(" ++ text ++ ")" else text

def margin (depth : Nat) : String :=
  String.ofList (List.replicate (4 * depth) ' ')

/-! ## Text -/

mutual

def render (text : ν → String) (depth limit : Nat) : Tree α ν → String
  | .node _ kind => parenthesize (limit < level kind) (renderKind text depth kind)

def renderKind (text : ν → String) (depth : Nat) : Kind ν (Part α ν) (List (Part α ν)) → String
  | .program body => renderLines text depth "" body
  | .importDefault binder source =>
    "import " ++ text binder ++ " from " ++ Quoted.literal (text source) ++ ";"
  | .varDecl keyword declarators =>
    keyword.text ++ " " ++ renderItems text depth "" "" declarators ++ ";"
  | .declarator name value => text name ++ renderAfter text depth " = " value
  | .function name params body =>
    "function " ++ text name ++ "(" ++ renderItems text depth "" "" params ++ ") "
      ++ renderPart text depth looseLevel body
  | .param name => text name
  | .ret value => "return" ++ renderAfter text depth " " value ++ ";"
  | .cond test yes no =>
    "if (" ++ renderPart text depth looseLevel test ++ ") " ++ renderPart text depth looseLevel yes
      ++ renderAfter text depth " else " no
  | .block body =>
    if body.isEmpty then "\x7b\x7d"
    else "\x7b\n" ++ renderLines text (depth + 1) "" body ++ margin depth ++ "\x7d"
  | .exprStmt expr => renderPart text depth looseLevel expr ++ ";"
  | .bigInt digits => text digits ++ "n"
  | .number digits => text digits
  | .str content => Quoted.literal (text content)
  | .bool value => if value then "true" else "false"
  | .null => "null"
  | .ident name => text name
  | .member object property => renderPart text depth primaryLevel object ++ "." ++ text property
  | .call callee args =>
    renderPart text depth primaryLevel callee ++ "(" ++ renderItems text depth "" "" args ++ ")"
  | .binary op left right =>
    renderPart text depth (leftLimit op) left ++ " " ++ op.symbol ++ " "
      ++ renderPart text depth (rightLimit op) right
  | .unary op operand =>
    op.symbol ++ unaryGap op operand ++ renderPart text depth unaryLevel operand
  | .assign op target value =>
    renderPart text depth primaryLevel target ++ " " ++ op.symbol ++ " "
      ++ renderPart text depth looseLevel value
  | .array elements => "[" ++ renderItems text depth "" "" elements ++ "]"
  | .arrow params body =>
    "(" ++ renderItems text depth "" "" params ++ ") => " ++ renderPart text depth looseLevel body

def renderPart (text : ν → String) (depth limit : Nat) : Part α ν → String
  | none => ""
  | some tree => render text depth limit tree

/-- The text of a part that may be absent, with a lead-in that is shown only if it is there. -/
def renderAfter (text : ν → String) (depth : Nat) (lead : String) : Part α ν → String
  | none => ""
  | some tree => lead ++ render text depth looseLevel tree

def renderLines (text : ν → String) (depth : Nat) (written : String) : List (Part α ν) → String
  | [] => written
  | part :: rest =>
    renderLines text depth
      (written ++ margin depth ++ renderPart text depth looseLevel part ++ "\n") rest

def renderItems (text : ν → String) (depth : Nat) (written gap : String) :
    List (Part α ν) → String
  | [] => written
  | part :: rest =>
    renderItems text depth (written ++ gap ++ renderPart text depth looseLevel part) ", " rest

end

def endLine (text : String) : String :=
  if text.isEmpty then ""
  else String.ofList (text.toList.reverse.dropWhile (· == '\n')).reverse ++ "\n"

def unitText (text : ν → String) (tree : Tree α ν) : String :=
  endLine (render text 0 looseLevel tree)

end Tree

namespace Store

/-- The source text of what is in a slot, ending in one newline. A tree with gaps has no text. -/
def print (s : Store) (text : Name → String) : Slot → Except Fault String
  | none => throw .outOfBounds
  | some id => return (← s.wholeTree id).unitText text

end Store

end BigLower
