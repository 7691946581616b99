import Std.Data.TreeMap

/-! # Interned names

Texts are stored once and stand in the trees by number. The empty text is there
from the start and has number zero. Interning is two steps, a look-up and an
insertion that looks again, so that several clients can share one table.
-/

namespace BigLower

/-- A name stands for its text in some table of names. -/
abbrev Name := Nat

structure Names where
  texts : Array String
  index : Std.TreeMap String Name

namespace Names

def fresh : Names where
  texts := #[""]
  index := (∅ : Std.TreeMap String Name).insert "" 0

def size (t : Names) : Nat := t.texts.size

def isEmpty (t : Names) : Bool := t.size == 0

/-- The reading step: the name of a text that is already there. -/
def find? (t : Names) (text : String) : Option Name := t.index[text]?

/-- The writing step: the text is looked up again and only a new one is appended. -/
def insert (t : Names) (text : String) : Name × Names :=
  match t.find? text with
  | some name => (name, t)
  | none =>
    let name := t.texts.size
    (name, { texts := t.texts.push text, index := t.index.insert text name })

def intern (t : Names) (text : String) : Name × Names :=
  match t.find? text with
  | some name => (name, t)
  | none => t.insert text

def text (t : Names) (name : Name) : String := t.texts.getD name ""

def describe (name : Name) : String := s!"Name({name})"

/-- The reading step saves work only: interning is the writing step. -/
theorem intern_eq_insert (t : Names) (text : String) : t.intern text = t.insert text := by
  unfold intern insert
  split <;> rfl

@[simp] theorem size_fresh : fresh.size = 1 := rfl

end Names

/-- What the lowering needs of a table of names: to intern a text, and to read one back. -/
class Naming (τ : Type) where
  /-- The name of a text, and the table after the call. -/
  intern : τ → String → Name × τ
  /-- The text of a name. -/
  text : τ → Name → String

instance : Naming Names where
  intern := Names.intern
  text := Names.text

end BigLower
