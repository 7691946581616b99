import BigLower.Names.Table

/-! # A table of names with other clients

One client's view of a table that others intern into. Between any two of its
own calls the others may have added texts; which ones, and when, is a schedule
that the client cannot see.
-/

namespace BigLower

/-- A table and, for each coming call of this client, the texts that others intern before it. -/
structure SharedNames where
  table : Names
  arrivals : List (List String)

namespace SharedNames

def arrive (table : Names) (texts : List String) : Names :=
  texts.foldl (fun t text => (t.intern text).2) table

/-- Interning among others: first the next arrivals, then the client's own text. -/
def intern (t : SharedNames) (text : String) : Name × SharedNames :=
  match t.arrivals with
  | [] =>
    let (name, table) := t.table.intern text
    (name, ⟨table, []⟩)
  | texts :: later =>
    let (name, table) := (arrive t.table texts).intern text
    (name, ⟨table, later⟩)

end SharedNames

instance : Naming SharedNames where
  intern := SharedNames.intern
  text t := t.table.text

end BigLower
