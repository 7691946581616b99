import BigLower.Proofs.Abreast
import BigLower.Proofs.Totality

/-! # Units that are lowered together

Units that are lowered against one table of names have nothing else in common. What
becomes of a unit does not depend on the units that came before it, nor on what others
intern while it is lowered: only the numbers of its names do. The texts that are in the
table in the end are the same for every order.
-/

namespace BigLower

open Naming (Tabled)
open Naming.Tabled (table)

/-! ## The texts of a table -/

namespace Names

variable {t t' : Names} {text : String}

theorem mem_texts_intern (consistent : t.Consistent) (own : String) :
    text ∈ (t.intern own).2.texts ↔ text ∈ t.texts ∨ text = own := by
  rw [intern_eq_insert]
  unfold insert
  cases found : t.find? own with
  | some name =>
    have there : own ∈ t.texts := Array.mem_of_getElem? ((consistent own name).mp found)
    constructor
    · exact .inl
    · rintro (mem | rfl)
      · exact mem
      · exact there
  | none => simp

theorem mem_texts_arrive (consistent : t.Consistent) (others : List String) :
    text ∈ (SharedNames.arrive t others).texts ↔ text ∈ t.texts ∨ text ∈ others := by
  induction others generalizing t with
  | nil => simp [SharedNames.arrive]
  | cons own rest ih =>
    have later := ih (consistent.intern own)
    rw [mem_texts_intern consistent] at later
    simpa [SharedNames.arrive, or_assoc] using later

end Names

namespace Naming

theorem Grows.mem_texts {t t' : Names} (h : Grows t t') (consistent : t.Consistent) {text : String}
    (mem : text ∈ t.texts) : text ∈ t'.texts := by
  induction h with
  | refl => exact mem
  | intern h own ih => exact (Names.mem_texts_intern (h.consistent consistent) own).mpr (.inl ih)

/-- A table has the texts that it had and those that were interned. -/
theorem Interns.mem_texts {t t' : Names} {texts : List String} (h : Interns t texts t')
    (consistent : t.Consistent) {text : String} :
    text ∈ t'.texts ↔ text ∈ t.texts ∨ text ∈ texts := by
  have arrived : t' = SharedNames.arrive t texts := by
    induction h with
    | nil => rfl
    | intern h own ih =>
      rw [ih]
      simp [SharedNames.arrive, Naming.intern]
  rw [arrived, Names.mem_texts_arrive consistent]

theorem Interns.mem_texts_shared {t t' : SharedNames} {texts : List String} (h : Interns t texts t')
    (consistent : t.table.Consistent) : t'.table.Consistent ∧
    ∃ came, t.arrivals = came ++ t'.arrivals ∧ ∀ text,
      text ∈ t'.table.texts ↔ text ∈ t.table.texts ∨ text ∈ texts ∨ text ∈ came.flatten := by
  induction h with
  | nil => exact ⟨consistent, [], by simp⟩
  | @intern texts a h own ih =>
    obtain ⟨before, came, split, mem⟩ := ih
    obtain ⟨b, arrivals⟩ := a
    cases arrivals with
    | nil =>
      refine ⟨before.intern own, came, split, fun text => ?_⟩
      have last : text ∈ (b.intern own).2.texts ↔ text ∈ b.texts ∨ text = own :=
        Names.mem_texts_intern before own
      show text ∈ (b.intern own).2.texts ↔ _
      rw [last, mem text]
      simp only [List.mem_append, List.mem_singleton]
      tauto
    | cons others later =>
      have arrived : (SharedNames.arrive b others).Consistent := before.interned others
      refine ⟨arrived.intern own, came ++ [others],
        by simp [split, SharedNames.intern, Naming.intern], fun text => ?_⟩
      have last : text ∈ ((SharedNames.arrive b others).intern own).2.texts ↔
          (text ∈ b.texts ∨ text ∈ others) ∨ text = own := by
        rw [Names.mem_texts_intern arrived, Names.mem_texts_arrive before]
      show text ∈ ((SharedNames.arrive b others).intern own).2.texts ↔ _
      rw [last, mem text]
      simp only [List.mem_append, List.mem_singleton, List.flatten_append, List.flatten_singleton]
      tauto

end Naming

/-! ## One unit and two tables -/

namespace Store

variable {s : Store} {root : Nat} {body : Range} {R : Name → Name → Prop}

def region (s : Store) (root : Nat) : Region := ⟨s, s.Reaches root⟩

theorem IsSharedUnit.has (h : s.IsSharedUnit root body) {x : Nat} (reached : s.Reaches root x)
    {k : NodeKind} (own : s.kind (some x) = .ok k) : (s.region root).Has k := by
  obtain ⟨below, read⟩ := h.readable x reached
  have child {y : Nat} (mem : y ∈ below) : (s.region root).Node y :=
    .inl (reached.tail ⟨below, read, mem⟩)
  intro part mem
  cases part with
  | inl slot =>
    rintro y rfl
    exact child ((mem_children_iff own read).mpr (.inl mem))
  | inr range =>
    obtain ⟨list, listed⟩ := (exists_children_iff own).mp ⟨below, read⟩ range mem
    refine .inr ⟨list, listed, fun y inside => child ?_⟩
    exact (mem_children_iff own read).mpr (.inr ⟨range, list, mem, listed, inside⟩)

/-- A store is alike to itself, as far as a unit goes whose names agree with themselves. -/
theorem IsSharedUnit.alike (h : s.IsSharedUnit root body)
    (known : ∀ x, s.Reaches root x → ∀ k, s.kind (some x) = .ok k → ∀ name ∈ k.names, R name name) :
    s.Alike R (s.region root) s where
  size := rfl
  lists := rfl
  grown := Nat.le_refl _
  entries := ⟨#[], by simp [region]⟩
  nodes x inside n found := by
    rcases inside with reached | new
    · have own : s.kind (some x) = .ok n.kind := kind_of_node? found
      exact ⟨n.kind, found, Kind.like_self (known x reached _ own), h.has reached own⟩
    · have old := node?_lt found
      exact absurd old (Nat.not_lt.mpr new)
  others _ _ := rfl

/-- The import is put at the same place under either of its names. -/
theorem Alike.insert {s' : Store} {Z : Region} (alike : s.Alike R Z s')
    (inside : Z.Node root) {L L' : LibraryNames} (like : L.Like R L')
    (program : s.kind (some root) = .ok (.program body)) {slots : List Slot}
    (read : s.list body = .ok slots) {x : Nat} {s₀ : Store}
    (inserted : ({} : Prologue).insert s (some root) L = .ok (⟨some x⟩, s₀)) :
    ∃ s₀', ({} : Prologue).insert s' (some root) L' = .ok (⟨some x⟩, s₀') ∧ s₀.Alike R Z s₀' := by
  obtain ⟨⟨kind, span⟩, found, same⟩ := kind_eq_ok_iff.mp program
  cases same
  obtain ⟨k', found', ⟨both, left, right, -⟩, has⟩ := alike.nodes root inside _ found
  have list : Z.List body := has.list List.mem_cons_self
  cases both with
  | program body' =>
    cases left
    cases right
    have imported : (Kind.importDefault L.library L.source : NodeKind).Like R
        (.importDefault L'.library L'.source) := by
      refine ⟨.importDefault (L.library, L'.library) (L.source, L'.source), rfl, rfl, ?_⟩
      simpa [Kind.names] using ⟨like.library, like.source⟩
    rw [Prologue.insert_eq found] at inserted
    obtain ⟨⟨_, s₁⟩, added, rest⟩ := bind_eq_ok_iff.mp inserted
    obtain ⟨⟨range, s₂⟩, stored, rest⟩ := bind_eq_ok_iff.mp rest
    obtain ⟨s₃, replaced, same⟩ := bind_eq_ok_iff.mp rest
    cases same
    obtain ⟨here, s₁', added', alike₁⟩ := alike.alloc imported (Region.has_leaf rfl) added
    obtain ⟨-, -, rfl⟩ := alloc_eq_ok_iff.mp added
    have read₁ : (s.push (.importDefault L.library L.source) span).list body = .ok slots := read
    rw [prepend_eq_allocList read₁] at stored
    have slots' : ∀ y, some y ∈ some x :: slots → Z.Node y := by
      intro y mem
      rcases List.mem_cons.mp mem with same | mem
      · cases same
        exact here
      · exact alike.node_of_list list read mem
    obtain ⟨listed, s₂', stored', alike₂⟩ := alike₁.allocList slots' stored
    rw [← prepend_eq_allocList ((alike₁.list_eq _).trans read₁)] at stored'
    have has' : Z.Has (.program range : NodeKind) := by simpa [Region.Has, Kind.parts] using listed
    obtain ⟨s₃', replaced', alike₃⟩ :=
      alike₂.replace inside.slot (Kind.like_nameless rfl) has' replaced
    refine ⟨s₃', ?_, alike₃⟩
    rw [Prologue.insert_eq found']
    exact (bind_of_eq added').trans ((bind_of_eq stored').trans (bind_of_eq replaced'))
  | _ => cases left

end Store

namespace Naming

variable {τ τ' : Type} [Naming τ] [Naming τ'] [Tabled τ] [Tabled τ']

theorem Interns.grows {t a : τ} {texts : List String} (h : Interns t texts a) :
    Grows (table t) (table a) := by
  induction h with
  | nil => exact .refl
  | intern h text ih => exact ih.trans (Tabled.intern_spec _ text).2

omit [Tabled τ] in
theorem interns_config (config : Config) (t : τ) :
    Interns t [config.library, config.source, config.constructor, factoryText, config.math]
      (config.intern t).2 :=
  ((((Interns.nil.intern config.library).intern config.source).intern config.constructor).intern
    factoryText).intern config.math

theorem abreast_config (config : Config) {t : τ} {t' : τ'} (left : (table t).Consistent)
    (right : (table t').Consistent) :
    Abreast t t' (config.intern t).2 (config.intern t').2 ∧
      (config.intern t).1.Like (Same (config.intern t).2 (config.intern t').2)
        (config.intern t').1 := by
  have named := config.named_intern left
  have named' := config.named_intern right
  exact ⟨⟨⟨_, interns_config config t, interns_config config t'⟩, named.consistent, named'.consistent⟩,
    ⟨_, named.library, named'.library⟩, ⟨_, named.source, named'.source⟩,
    ⟨_, named.constructor, named'.constructor⟩, ⟨_, named.factory, named'.factory⟩,
    ⟨_, named.math, named'.math⟩⟩

end Naming

section Unit

variable {τ τ' : Type} [Naming τ] [Naming τ'] [Tabled τ] [Tabled τ'] {s : Store} {root : Nat}
  {body : Range} {t₀ : Names} {t : τ} {t' : τ'}

/--
A unit that uses the names of one table is lowered alike from any two tables that have
grown from it, if the store does not get full.
-/
theorem lower_alike (h : s.IsSharedUnit root body) (short : body.len < Store.maxListLength)
    (known : ∀ x, s.Reaches root x → ∀ k, s.kind (some x) = .ok k → ∀ name ∈ k.names, name < t₀.size)
    (consistent : t₀.Consistent) (left : Naming.Grows t₀ (table t))
    (right : Naming.Grows t₀ (table t')) {config : Config}
    (room : ¬ Overflows (lower config s (some root) t)) :
    ∃ (store store' : Store) (names : τ) (names' : τ') (outcome : Outcome),
      lower config s (some root) t = .ok ⟨store, names, .ok outcome⟩ ∧
      lower config s (some root) t' = .ok ⟨store', names', .ok outcome⟩ ∧
      Naming.Abreast t t' names names' ∧
      store.Alike (Naming.Same names names') (s.region root) store' := by
  obtain ⟨scopes, s₀, q, resolved, inserted, ran⟩ := h.steps short room
  obtain ⟨names, library⟩ := Naming.abreast_config config (left.consistent consistent)
    (right.consistent consistent)
  have agree : ∀ x, s.Reaches root x → ∀ k, s.kind (some x) = .ok k → ∀ name ∈ k.names,
      Naming.Same (config.intern t).2 (config.intern t').2 name name :=
    fun x reached k own name mem => Names.agree_self consistent (known x reached k own name mem)
      (left.trans (Naming.interns_config config t).grows)
      (right.trans (Naming.interns_config config t').grows)
  have top : (s.region root).Node root := .inl .refl
  obtain ⟨T, statements, -, -, -, -, read, -⟩ := h.tree
  obtain ⟨s₀', inserted', alike⟩ := (h.alike agree).insert top library h.program read inserted
  have start : Abreast (s.region root) t t' (config.engine .cached t).1 (config.engine .cached t').1
      { store := s₀, names := (config.intern t).2, scopes }
      { store := s₀', names := (config.intern t').2, scopes } :=
    ⟨names, library, alike, rfl, rfl, rfl⟩
  obtain ⟨_, q', ran', after⟩ := start.lowerWithin ⟨rfl, rfl, rfl⟩ (s₀.size + 3) top () q ran
  rw [← alike.size] at ran'
  have done := lower_of_steps h.program resolved inserted ran
  have done' := lower_of_steps h.program resolved inserted' ran'
  rw [after.facts, after.scopes, after.tally] at done'
  exact ⟨_, _, _, _, _, done, done', after.names, after.store⟩

end Unit

/-! ## What is the same -/

def Node.spell (text : Name → String) (n : Node) : Kind String Slot Range × Span :=
  (n.kind.rename text, n.span)

namespace CompilationUnit

def Reaches (u : CompilationUnit) (x : Nat) : Prop :=
  ∃ root, u.root = some root ∧ u.store.Reaches root x

def NamedIn (u : CompilationUnit) (t : Names) : Prop :=
  ∀ x, u.Reaches x → ∀ k, u.store.kind (some x) = .ok k → ∀ name ∈ k.names, name < t.size

def IsRejected (u : CompilationUnit) : Prop :=
  ∀ body span, u.store.node? u.root ≠ some ⟨.program body, span⟩

def HasRoom (u : CompilationUnit) : Prop :=
  ∃ root body, u.root = some root ∧ u.store.IsSharedUnit root body ∧ body.len < Store.maxListLength

/--
Two results for a unit that differ in the numbers of names only, when names are read by
`text` in the first and by `text'` in the second.
-/
structure SameResult (u : CompilationUnit) (text text' : Name → String) (a b : LoweredUnit) :
    Prop where
  roots : a.root = u.root ∧ b.root = u.root
  /-- Lowered or rejected alike, and with the same flags, bindings, references and counts. -/
  result : b.result = a.result
  size : b.store.size = a.store.size
  lists : b.store.lists = a.store.lists
  nodes : ∀ x, u.Reaches x ∨ u.store.size ≤ x →
    (b.store.node? (some x)).map (Node.spell text') = (a.store.node? (some x)).map (Node.spell text)
  /-- What is not in the tree keeps even the numbers. -/
  others : ∀ x, ¬ (u.Reaches x ∨ u.store.size ≤ x) → b.store.node? (some x) = a.store.node? (some x)
  printed : b.store.print text' u.root = a.store.print text u.root

end CompilationUnit

def Lowered.unit {τ : Type} (a : Lowered τ) (root : Slot) : LoweredUnit := ⟨a.store, root, a.result⟩

namespace Store

variable {s : Store}

theorem children_of_treeWithin {gap : Except Fault (Tree.Part Nat Name)} {fuel x : Nat}
    {W : Tree Nat Name} (read : s.treeWithin gap (fuel + 1) x = .ok W) :
    ∃ k below, s.kind (some x) = .ok k ∧ s.children (some x) = .ok below := by
  obtain ⟨k, own, rest⟩ := bind_eq_ok_iff.mp read
  obtain ⟨k', traversed, -⟩ := bind_eq_ok_iff.mp rest
  have lists : ∀ range, .inr range ∈ k.parts → ∃ list, s.list range = .ok list := by
    intro range mem
    obtain ⟨_, done⟩ := Kind.ok_of_traverse_list traversed mem
    obtain ⟨list, listed, -⟩ := bind_eq_ok_iff.mp done
    exact ⟨list, listed⟩
  obtain ⟨below, children⟩ := (exists_children_iff own).mpr lists
  exact ⟨k, below, own, children⟩

theorem map_treeWithin_congr {μ : Type} {f g : Name → μ} {x : Nat}
    (same : ∀ y, s.Reaches x y → ∀ k, s.kind (some y) = .ok k → ∀ name ∈ k.names, f name = g name)
    (e : Fault) (fuel : Nat) :
    Tree.rename f <$> s.treeWithin (throw e) fuel x =
      Tree.rename g <$> s.treeWithin (throw e) fuel x := by
  induction fuel generalizing x with
  | zero => rfl
  | succ fuel ih =>
    cases read : s.treeWithin (throw e) (fuel + 1) x with
    | error fault => rfl
    | ok W =>
      obtain ⟨k, below, own, children⟩ := children_of_treeWithin read
      have child {y : Nat} (mem : y ∈ below) :
          Tree.rename f <$> s.treeWithin (throw e) fuel y =
            Tree.rename g <$> s.treeWithin (throw e) fuel y :=
        ih fun z reached => same z (.head ⟨below, children, mem⟩ reached)
      rw [← read]
      apply map_treeWithin_step own own (Kind.rename_congr (same x .refl k own)) rfl
      intro y mem
      exact child ((mem_children_iff own children).mpr mem)

/-- The text of a tree depends on the texts of the names that can be reached. -/
theorem print_congr {text text' : Name → String} {slot : Slot}
    (same : ∀ x, slot = some x → ∀ y, s.Reaches x y → ∀ k, s.kind (some y) = .ok k →
      ∀ name ∈ k.names, text name = text' name) : s.print text' slot = s.print text slot :=
  print_eq_of_trees rfl fun x here => map_treeWithin_congr (same x here) .outOfBounds _

end Store

/-! ## Units and batches -/

namespace CompilationUnit

variable {τ τ' : Type} [Naming τ] [Naming τ'] [Tabled τ] [Tabled τ'] {u : CompilationUnit} {I : Names}
  {t : τ} {t' : τ'}

theorem namedIn_of_holds {s : Store} {T : Tree Nat Name} (holds : s.Holds T) (named : T.NamedIn I) :
    (⟨s, some T.tag⟩ : CompilationUnit).NamedIn I := by
  rintro x ⟨root, ⟨⟩, reached⟩ k own name mem
  obtain ⟨u, below, rfl⟩ := holds.mem_of_reaches reached
  obtain ⟨range, kind, -⟩ := (holds.subtree below).kind_list
  cases own.symm.trans kind
  have names : (u.kind.map (Option.map Tree.tag) fun _ => range).names = u.kind.names := by
    cases u.kind <;> rfl
  exact named u below name (names ▸ mem)

/-- A rejected unit is left as it was. -/
theorem IsRejected.lower_eq (h : u.IsRejected) (config : Config) : ∃ rejection,
    ∀ {τ : Type} [Naming τ] (t : τ),
      lower config u.store u.root t = .ok ⟨u.store, t, .error rejection⟩ := by
  cases found : u.store.node? u.root with
  | none => exact ⟨_, lower_of_absent found config⟩
  | some node =>
    refine ⟨_, lower_of_other found ?_ config⟩
    intro body program
    obtain ⟨kind, span⟩ := node
    cases program
    exact h body span found

/-- A unit has one result from all tables that have grown from the one that it takes its names from. -/
theorem sameResult (sound : u.IsRejected ∨ u.HasRoom) (known : u.NamedIn I) (consistent : I.Consistent)
    (left : Naming.Grows I (table t)) (right : Naming.Grows I (table t')) {config : Config}
    (room : ¬ Overflows (lower config u.store u.root t)) :
    ∃ (a : Lowered τ) (b : Lowered τ'), lower config u.store u.root t = .ok a ∧
      lower config u.store u.root t' = .ok b ∧ Naming.Abreast t t' a.names b.names ∧
      ∀ A B : Names, Naming.Grows (table a.names) A → Naming.Grows (table b.names) B →
        u.SameResult A.text B.text (a.unit u.root) (b.unit u.root) := by
  rcases sound with rejected | ⟨root, body, top, unit, short⟩
  · obtain ⟨rejection, lowered⟩ := rejected.lower_eq config
    refine ⟨_, _, lowered t, lowered t',
      ⟨⟨[], .nil, .nil⟩, left.consistent consistent, right.consistent consistent⟩,
      fun A B first second => ?_⟩
    have same : ∀ x, u.Reaches x → ∀ k, u.store.kind (some x) = .ok k → ∀ name ∈ k.names,
        A.text name = B.text name := by
      intro x reached k own name mem
      have bound := known x reached k own name mem
      rw [((left.trans first).text bound).2, ((right.trans second).text bound).2]
    refine ⟨⟨rfl, rfl⟩, rfl, rfl, rfl, ?_, fun _ _ => rfl, ?_⟩
    · intro x inside
      show (u.store.node? (some x)).map _ = (u.store.node? (some x)).map _
      cases found : u.store.node? (some x) with
      | none => rfl
      | some n =>
        rcases inside with reached | new
        · have spelled := Kind.rename_congr (same x reached n.kind (Store.kind_of_node? found))
          simp only [Option.map_some, Node.spell, spelled]
        · exact absurd (Store.node?_lt found) (Nat.not_lt.mpr new)
    · exact Store.print_congr fun x here y reached => same y ⟨x, here, reached⟩
  · obtain ⟨s, slot⟩ := u
    cases top
    have known' : ∀ x, s.Reaches root x → ∀ k, s.kind (some x) = .ok k → ∀ name ∈ k.names,
        name < I.size :=
      fun x reached => known x ⟨root, rfl, reached⟩
    obtain ⟨store, store', names, names', outcome, done, done', abreast, alike⟩ :=
      lower_alike unit short known' consistent left right room
    refine ⟨_, _, done, done', abreast, fun A B first second => ?_⟩
    have text : ∀ a b, Naming.Same names names' a b → A.text a = B.text b := fun a b same =>
      (same.grows first second).text_eq (first.consistent abreast.left)
        (second.consistent abreast.right)
    have inside {x : Nat} : (⟨s, some root⟩ : CompilationUnit).Reaches x ∨ s.size ≤ x ↔
        (s.region root).Node x := by
      unfold Reaches
      simp [Region.Node, Store.region]
    refine ⟨⟨rfl, rfl⟩, rfl, alike.size, alike.lists, fun x here => ?_, fun x outside => ?_, ?_⟩
    · rcases alike.cases_node? (inside.mp here).slot with
        ⟨found, found'⟩ | ⟨k, k', span, found, found', like, -⟩
      · show (store'.node? (some x)).map _ = (store.node? (some x)).map _
        rw [found, found']
        rfl
      · show (store'.node? (some x)).map _ = (store.node? (some x)).map _
        rw [found, found']
        simp only [Option.map_some, Node.spell, like.rename_eq text]
    · exact alike.others x fun node => outside (inside.mpr node)
    · exact alike.print_eq text (inside.mp (.inl ⟨root, rfl, .refl⟩)).slot

end CompilationUnit

/-! ### Results by position -/

/-- Some positions of a batch have been filled with results for their units, and no others. -/
structure Filled (units : List CompilationUnit) (P : CompilationUnit → LoweredUnit → Prop)
    (order : List (Fin units.length)) (before after : List (Option LoweredUnit)) : Prop where
  length : after.length = before.length
  filled : ∀ i ∈ order, ∃ result, after[i.val]? = some (some result) ∧ P (units.get i) result
  others : ∀ i, i ∉ order → after[i.val]? = before[i.val]?

namespace Filled

variable {units : List CompilationUnit} {P : CompilationUnit → LoweredUnit → Prop}
  {order : List (Fin units.length)} {i : Fin units.length} {before after : List (Option LoweredUnit)}

/-- A position that is filled first stays filled, whether it is filled once more or not. -/
theorem cons {result : LoweredUnit} (bound : i.val < before.length) (good : P (units.get i) result)
    (h : Filled units P order (before.set i (some result)) after) :
    Filled units P (i :: order) before after where
  length := by rw [h.length, List.length_set]
  filled j mem := by
    by_cases later : j ∈ order
    · exact h.filled j later
    · obtain rfl : j = i := (List.mem_cons.mp mem).resolve_right later
      refine ⟨result, ?_, good⟩
      rw [h.others j later, List.getElem?_set_self bound]
  others j outside := by
    rw [List.mem_cons, not_or] at outside
    rw [h.others j outside.2, List.getElem?_set_ne fun same => outside.1 (Fin.ext same.symm)]

theorem forall₂_of_slots {slots : List (Option LoweredUnit)}
    (each : List.Forall₂ (fun u slot => ∃ result, slot = some result ∧ P u result) units slots) :
    List.Forall₂ P units (slots.filterMap id) := by
  induction each with
  | nil => exact .nil
  | cons here _ ih =>
    obtain ⟨result, rfl, good⟩ := here
    exact .cons good ih

/-- When all positions have been filled, every unit has its result at its own position. -/
theorem forall₂ (h : Filled units P order before after) (whole : before.length = units.length)
    (all : ∀ i, i ∈ order) : List.Forall₂ P units (after.filterMap id) := by
  refine forall₂_of_slots (List.forall₂_iff_get.mpr
    ⟨(h.length.trans whole).symm, fun i first second => ?_⟩)
  obtain ⟨result, found, good⟩ := h.filled ⟨i, first⟩ (all _)
  rw [List.getElem?_eq_getElem second] at found
  exact ⟨result, Option.some.inj found, good⟩

end Filled

section Batch

variable {config : Config} {I : Names} (consistent : I.Consistent)
  {alone : CompilationUnit → Lowered Names} {units : List CompilationUnit}
  (sound : ∀ u ∈ units, u.IsRejected ∨ u.HasRoom) (known : ∀ u ∈ units, u.NamedIn I)
  (lowered : ∀ u ∈ units, lower config u.store u.root I = .ok (alone u))

include consistent sound known lowered

/-- The units that are lowered one after the other have the results that each of them has alone. -/
theorem lowerInOrder_same {t : Names} (grown : Naming.Grows I t) {results : List (Option LoweredUnit)}
    (whole : results.length = units.length) (order : List (Fin units.length)) :
    ∃ results' names, lowerInOrder config units order results t = .ok (results', names) ∧
      Naming.Grows t names ∧
      (∀ text, text ∈ names.texts ↔
        text ∈ t.texts ∨ ∃ i ∈ order, text ∈ (alone (units.get i)).names.texts) ∧
      ∀ B, Naming.Grows names B → Filled units (fun u result =>
        u.SameResult (alone u).names.text B.text ((alone u).unit u.root) result)
        order results results' := by
  induction order generalizing t results with
  | nil => exact ⟨results, t, rfl, .refl, by simp, fun _ _ => ⟨rfl, nofun, fun _ _ => rfl⟩⟩
  | cons i rest ih =>
    let u := units.get i
    have mem : u ∈ units := List.get_mem units i
    have room : ¬ Overflows (lower config u.store u.root I) :=
      fun stuck => stuck.ne_ok _ (lowered u mem)
    obtain ⟨a, b, first, second, abreast, same⟩ :=
      @CompilationUnit.sameResult Names Names _ _ _ _ u I I t (sound u mem) (known u mem) consistent
        .refl grown config room
    cases (lowered u mem).symm.trans first
    obtain ⟨texts, left, right⟩ := abreast.texts
    have later : Naming.Grows t b.names := right.grows
    obtain ⟨results', names, ran, grown', texts', each⟩ :=
      ih (grown.trans later) (List.length_set.trans whole)
    have bound : i.val < results.length := Nat.lt_of_lt_of_eq i.isLt whole.symm
    refine ⟨results', names, (bind_of_eq second).trans ran, later.trans grown', fun text => ?_,
      fun B after => .cons bound (same _ B .refl (grown'.trans after)) (each B after)⟩
    have before : text ∈ I.texts → text ∈ t.texts := grown.mem_texts consistent
    have own : text ∈ (alone (units.get i)).names.texts ↔ text ∈ I.texts ∨ text ∈ texts :=
      left.mem_texts consistent
    rw [texts' text, right.mem_texts (grown.consistent consistent), List.exists_mem_cons_iff, own]
    tauto

/-- In every order a batch has the results that its units have alone, in its own order. -/
theorem lowerBatch_same {order : List (Fin units.length)}
    (perm : order.Perm (List.finRange units.length)) :
    ∃ results names, lowerBatch config units I order = .ok (results, names) ∧
      List.Forall₂ (fun u result => u.SameResult (alone u).names.text names.text
        ((alone u).unit u.root) result) units results ∧
      ∀ text, text ∈ names.texts ↔
        text ∈ I.texts ∨ ∃ u ∈ units, text ∈ (alone u).names.texts := by
  have all (i : Fin units.length) : i ∈ order := perm.mem_iff.mpr (List.mem_finRange i)
  have whole : (units.map fun _ => (none : Option LoweredUnit)).length = units.length := by simp
  obtain ⟨results, names, ran, -, texts, each⟩ :=
    lowerInOrder_same consistent sound known lowered .refl whole order
  refine ⟨results.filterMap id, names, bind_of_eq ran, (each names .refl).forall₂ whole all,
    fun text => ?_⟩
  rw [texts text]
  simp [all, List.exists_mem_iff_get]

end Batch

namespace Sample

/-- The sample, a unit with a shared statement, and a unit without a root. -/
def units : List CompilationUnit := [⟨store, some 25⟩, ⟨sharedStore, some 5⟩, ⟨store, none⟩]

theorem units_sound : ∀ u ∈ units, u.IsRejected ∨ u.HasRoom := by
  have first : (⟨store, some 25⟩ : CompilationUnit).HasRoom :=
    ⟨25, ⟨5, 5⟩, rfl, @Store.Holds.isSharedUnit _ _ tree wellFormed.holds (by decide +kernel)
      (by decide +kernel) (by decide +kernel) (by decide +kernel), by decide⟩
  have second : (⟨sharedStore, some 5⟩ : CompilationUnit).HasRoom :=
    ⟨5, ⟨0, 3⟩, rfl, sharedUnit, by decide⟩
  have third : (⟨store, none⟩ : CompilationUnit).IsRejected := nofun
  simp [units, first, second, third]

theorem units_named : ∀ u ∈ units, u.NamedIn names := by
  have first : (⟨store, some 25⟩ : CompilationUnit).NamedIn names :=
    @CompilationUnit.namedIn_of_holds _ _ tree wellFormed.holds (by unfold Tree.NamedIn; decide +kernel)
  have second : (⟨sharedStore, some 5⟩ : CompilationUnit).NamedIn names :=
    @CompilationUnit.namedIn_of_holds _ _ sharedTree (by decide +kernel)
      (by unfold Tree.NamedIn; decide +kernel)
  have third : (⟨store, none⟩ : CompilationUnit).NamedIn names := by
    rintro x ⟨root, ⟨⟩, -⟩
  simp [units, first, second, third]

theorem units_room : ∀ u ∈ units, ¬ Overflows (lower {} u.store u.root names) := by
  decide +kernel

end Sample

end BigLower
