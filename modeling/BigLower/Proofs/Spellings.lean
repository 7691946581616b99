import BigLower.Names.Lemmas
import BigLower.Names.Shared
import BigLower.Proofs.Lowering

/-! # Names that are given in a pass

A table of names only grows. A text keeps its name and a name its text, so the
names of a configuration and of the library methods can be read back at the end.
This does not change when others intern into the table too.
-/

namespace BigLower

namespace Naming

variable {a b c : Names}

theorem Grows.consistent (h : Grows a b) (consistent : a.Consistent) : b.Consistent := by
  induction h with
  | refl => exact consistent
  | intern _ text ih => exact ih.intern text

theorem find?_intern_of_some {text text' : String} {name : Name} (found : a.find? text = some name) :
    (a.intern text').2.find? text = some name := by
  rw [Names.intern_eq_insert, Names.find?_insert]
  split
  · rename_i same
    subst same
    simp [Names.insert, found]
  · exact found

/-- A text keeps its name. -/
theorem Grows.find? (h : Grows a b) {text : String} {name : Name} (found : a.find? text = some name) :
    b.find? text = some name := by
  induction h with
  | refl => exact found
  | intern _ text ih => exact find?_intern_of_some ih

/-- A name that is there keeps its text. -/
theorem Grows.text (h : Grows a b) {name : Name} (bound : name < a.size) :
    name < b.size ∧ b.text name = a.text name := by
  induction h with
  | refl => exact ⟨bound, rfl⟩
  | @intern b _ text ih =>
    show name < (b.intern text).2.size ∧ (b.intern text).2.text name = a.text name
    rw [Names.intern_eq_insert, Names.text_insert_of_lt ih.1]
    exact ⟨Nat.lt_of_lt_of_le ih.1 (b.size_le_size_insert text), ih.2⟩

theorem find?_intern (t : Names) (text : String) :
    (t.intern text).2.find? text = some (t.intern text).1 := by
  rw [Names.intern_eq_insert, Names.find?_insert, if_pos rfl]

theorem Spells.find? {text : String} {name : Name} (h : Spells a b text name) :
    b.find? text = some name := by
  obtain ⟨m, -, rfl, after⟩ := h
  exact after.find? (find?_intern m text)

theorem Renames.find? {old new : Name} (h : Renames a b old new) (bound : old < a.size) :
    b.find? (mathMethod (a.text old)) = some new := by
  obtain ⟨m, before, spells⟩ := h
  rw [← (before.text bound).2]
  exact spells.find?

theorem grows_arrive (t : Names) (texts : List String) : Grows t (SharedNames.arrive t texts) := by
  induction texts generalizing t with
  | nil => exact .refl
  | cons text rest ih => exact (Grows.refl.intern text).trans (ih _)

/-- What stands behind a naming is a table that others may intern into as well. -/
class Tabled (τ : Type) [Naming τ] where
  table : τ → Names
  text_eq (t : τ) : Naming.text t = (table t).text
  /-- When a text is interned, others may have come before. -/
  intern_eq (t : τ) (text : String) : ∃ others,
    ((Naming.intern t text).1, table (Naming.intern t text).2) =
      (SharedNames.arrive (table t) others).intern text

instance : Tabled Names where
  table t := t
  text_eq _ := rfl
  intern_eq _ _ := ⟨[], rfl⟩

instance : Tabled SharedNames where
  table := SharedNames.table
  text_eq _ := rfl
  intern_eq t text := by
    obtain ⟨table, arrivals⟩ := t
    cases arrivals with
    | nil => exact ⟨[], rfl⟩
    | cons texts later => exact ⟨texts, rfl⟩

open Tabled (table)

/-- A text that was interned has its name, and the table behind has only grown. -/
theorem Tabled.intern_spec {τ : Type} [Naming τ] [Tabled τ] (t : τ) (text : String) :
    (table (Naming.intern t text).2).find? text = some (Naming.intern t text).1 ∧
      Grows (table t) (table (Naming.intern t text).2) := by
  obtain ⟨others, same⟩ := Tabled.intern_eq t text
  obtain ⟨name, after⟩ := Prod.mk.inj same
  rw [name, after]
  exact ⟨find?_intern _ text, (grows_arrive _ others).intern text⟩

end Naming

/-- The names that a table has in the end, by the texts of a table before it. -/
def Names.spelling (before after : Names) : Spelling where
  method text name := after.find? text = some name
  math old new := old < before.size → after.find? (mathMethod (before.text old)) = some new

theorem Naming.spelling_le {a b c : Names} (before : Grows a b) :
    (Naming.spelling b c).Le (a.spelling c) where
  method := Spells.find?
  math renames bound := by
    rw [← (before.text bound).2]
    exact renames.find? (before.text bound).1

structure Config.Named (config : Config) (t : Names) (L : LibraryNames) : Prop where
  consistent : t.Consistent
  library : t.find? config.library = some L.library
  source : t.find? config.source = some L.source
  constructor : t.find? config.constructor = some L.constructor
  factory : t.find? factoryText = some L.factory
  math : t.find? config.math = some L.math

namespace Config

variable {config : Config}

theorem grows_intern {τ : Type} [Naming τ] (config : Config) (names : τ) :
    Naming.Grows names (config.intern names).2 :=
  ((((Naming.Grows.refl.intern config.library).intern config.source).intern
    config.constructor).intern factoryText).intern config.math

theorem named_intern {τ : Type} [Naming τ] [Naming.Tabled τ] (config : Config) {names : τ}
    (consistent : (Naming.Tabled.table names).Consistent) :
    config.Named (Naming.Tabled.table (config.intern names).2) (config.intern names).1 := by
  have step {t t' : τ} {text : String} {name : Name} (given : Naming.intern t text = (name, t')) :
      (Naming.Tabled.table t').find? text = some name ∧
        Naming.Grows (Naming.Tabled.table t) (Naming.Tabled.table t') := by
    have spec := Naming.Tabled.intern_spec t text
    rwa [given] at spec
  rcases given₁ : Naming.intern names config.library with ⟨n₁, t₁⟩
  rcases given₂ : Naming.intern t₁ config.source with ⟨n₂, t₂⟩
  rcases given₃ : Naming.intern t₂ config.constructor with ⟨n₃, t₃⟩
  rcases given₄ : Naming.intern t₃ factoryText with ⟨n₄, t₄⟩
  rcases given₅ : Naming.intern t₄ config.math with ⟨n₅, t₅⟩
  have whole : config.intern names = (⟨n₁, n₂, n₃, n₄, n₅⟩, t₅) := by
    simp only [intern, given₁, given₂, given₃, given₄, given₅]
  obtain ⟨found₅, last⟩ := step given₅
  have later₃ := (step given₄).2.trans last
  have later₂ := (step given₃).2.trans later₃
  have later₁ := (step given₂).2.trans later₂
  rw [whole]
  exact ⟨((step given₁).2.trans later₁).consistent consistent, later₁.find? (step given₁).1,
    later₂.find? (step given₂).1, later₃.find? (step given₃).1, last.find? (step given₄).1, found₅⟩

namespace Named

variable {t t' : Names} {L : LibraryNames}

theorem grows (h : config.Named t L) (later : Naming.Grows t t') : config.Named t' L where
  consistent := later.consistent h.consistent
  library := later.find? h.library
  source := later.find? h.source
  constructor := later.find? h.constructor
  factory := later.find? h.factory
  math := later.find? h.math

theorem intern_eq (h : config.Named t L) : config.intern t = (L, t) := by
  have known {text : String} {name : Name} (found : t.find? text = some name) :
      Naming.intern t text = (name, t) := by
    show t.intern text = (name, t)
    rw [Names.intern, found]
  unfold intern
  simp only [known h.library, known h.source, known h.constructor, known h.factory, known h.math]

theorem library_ne_constructor (h : config.Named t L)
    (different : config.library ≠ config.constructor) : L.library ≠ L.constructor := by
  intro same
  have library := h.library
  rw [same] at library
  exact different
    (h.consistent.text_of_find? library ▸ h.consistent.text_of_find? h.constructor)

end Named

end Config

end BigLower
