import BigLower.Syntax.Node
import BigLower.Taint.Method

/-! # The target library

Where the lowering sends big-integer arithmetic, and which names of the source
it takes for the built-in constructor and the mathematics object.
-/

namespace BigLower

structure Config where
  /-- The name that the library is bound to by the import. -/
  library : String := "JSBI"
  /-- The module that the library is imported from. -/
  source : String := "jsbi/dist/jsbi.mjs"
  /-- The name taken for the built-in constructor. -/
  constructor : String := factoryText
  /-- The name taken for the mathematics object. -/
  math : String := "Math"
  /-- Whether member calls with a big-integer argument are handled. -/
  memberCalls : Bool := true
deriving DecidableEq

structure LibraryNames where
  library : Name
  source : Name
  constructor : Name
  factory : Name
  math : Name
deriving DecidableEq

/-- The library's own member for a callee that is the constructor or a member of it. -/
def LibraryNames.memberFor {σ ρ : Type} (L : LibraryNames) : Kind Name σ ρ → Name
  | .member _ property => property
  | _ => L.factory

def Config.intern {τ : Type} [Naming τ] (c : Config) (names : τ) : LibraryNames × τ :=
  let (library, names) := Naming.intern names c.library
  let (source, names) := Naming.intern names c.source
  let (constructor, names) := Naming.intern names c.constructor
  let (factory, names) := Naming.intern names factoryText
  let (math, names) := Naming.intern names c.math
  (⟨library, source, constructor, factory, math⟩, names)

end BigLower
