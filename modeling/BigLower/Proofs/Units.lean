import BigLower.Proofs.Caching
import BigLower.Proofs.Resolving
import BigLower.Proofs.Spellings
import BigLower.Proofs.Walk
import BigLower.Unit

/-! # Lowering well-formed units

A unit is well-formed if its store holds a tree below the program without sharing,
and the tree has no gaps where a pass cannot do without a node. Lowering such a
unit succeeds with every faithful judge, unless the store gets full, and all judges leave
the same store.
-/

namespace BigLower

/--
The store holds the tree of a unit: a program with room for one more statement,
in which no node is shared, no statement, declarator, parameter or callee is
absent, and no list is longer than a range can count.
-/
structure WellFormed (s : Store) (T : Tree Nat Name) : Prop where
  holds : s.Holds T
  distinct : T.ids.Nodup
  program : ∃ body, T.kind = .program body ∧ body.length < Store.maxListLength
  entries : T.EntriesPresent
  callees : T.CalleesPresent
  fit : T.ListsFit

/-! ## Checking -/

section Decidable

variable {s : Store} {T : Tree Nat Name}

theorem Tree.entriesPresent_iff : T.EntriesPresent ↔
    ∀ u ∈ T.subtrees, ∀ list ∈ u.kind.fullLists, ∀ part ∈ list, part.isSome = true := by
  refine forall₄_congr fun u _ list _ => ⟨fun full part mem => ?_, fun all mem => ?_⟩
  · cases part with
    | none => exact (full mem).elim
    | some c => rfl
  · cases all none mem

theorem Tree.calleesPresent_iff : T.CalleesPresent ↔
    ∀ u ∈ T.subtrees, (match u.kind with | .call callee _ => callee.isSome | _ => true) = true := by
  refine forall₂_congr fun u _ => ?_
  cases u.kind <;> simp

theorem Tree.listsFit_iff_parts : T.ListsFit ↔ ∀ u ∈ T.subtrees, ∀ part ∈ u.kind.parts,
    (match part with | .inl _ => 0 | .inr list => list.length) ≤ Store.maxListLength := by
  refine forall₂_congr fun u _ => ⟨fun fit part mem => ?_, fun fit list mem => fit (.inr list) mem⟩
  cases part with
  | inl slot => exact Nat.zero_le _
  | inr list => exact fit list mem

theorem wellFormed_iff : WellFormed s T ↔ s.Holds T ∧ T.ids.Nodup ∧
    (match T.kind with | .program body => body.length < Store.maxListLength | _ => false) = true ∧
    T.EntriesPresent ∧ T.CalleesPresent ∧ T.ListsFit := by
  constructor
  · intro h
    obtain ⟨body, program, short⟩ := h.program
    exact ⟨h.holds, h.distinct, by simp [program, short], h.entries, h.callees, h.fit⟩
  · rintro ⟨holds, distinct, program, entries, callees, fit⟩
    refine ⟨holds, distinct, ?_, entries, callees, fit⟩
    cases kind : T.kind with
    | program body => exact ⟨body, rfl, by simpa [kind] using program⟩
    | _ => simp [kind] at program

instance : Decidable (s.Holds T) :=
  inferInstanceAs (Decidable (∀ u ∈ T.subtrees, s.shape u.tag = .ok u.shape))

instance : Decidable T.EntriesPresent := decidable_of_iff' _ Tree.entriesPresent_iff

instance : Decidable T.CalleesPresent := decidable_of_iff' _ Tree.calleesPresent_iff

instance : Decidable T.ListsFit := decidable_of_iff' _ Tree.listsFit_iff_parts

instance : Decidable (WellFormed s T) := decidable_of_iff' _ wellFormed_iff

end Decidable

/-! ## The import -/

namespace Tree

def withImport (T : Tree Nat Name) (library source : Name) (x : Nat) : Tree Nat Name :=
  match T.kind with
  | .program body => .node T.tag (.program (some (.node x (.importDefault library source)) :: body))
  | _ => T

section Import

variable {T : Tree Nat Name} {body : List (Part Nat Name)} (program : T.kind = .program body)
  (library source : Name) (x : Nat)

include program

theorem withImport_eq : T.withImport library source x =
    .node T.tag (.program (some (.node x (.importDefault library source)) :: body)) := by
  rw [withImport, program]

theorem children_of_program : T.children = body.filterMap id := by
  simp [children, program, Kind.slots, Kind.parts]

theorem children_withImport : (T.withImport library source x).children =
    .node x (.importDefault library source) :: T.children := by
  rw [withImport_eq program, children_of_program program]
  simp [children, Tree.kind, Kind.slots, Kind.parts]

theorem tag_withImport : (T.withImport library source x).tag = T.tag := by
  rw [withImport_eq program]
  rfl

theorem ids_withImport : (T.withImport library source x).ids =
    T.tag :: x :: T.children.flatMap ids := by
  have leaf : (node x (Kind.importDefault library source) : Tree Nat Name).ids = [x] := ids_leaf rfl
  rw [ids_eq, tag_withImport program, children_withImport program, List.flatMap_cons, leaf]
  rfl

theorem mem_subtrees_withImport {u : Tree Nat Name} :
    u ∈ (T.withImport library source x).subtrees ↔
      u = T.withImport library source x ∨ u = .node x (.importDefault library source) ∨
        ∃ c ∈ T.children, u ∈ c.subtrees := by
  have leaf : (node x (Kind.importDefault library source) : Tree Nat Name).subtrees =
      [.node x (.importDefault library source)] := by
    rw [subtrees_eq]
    rfl
  rw [subtrees_eq, children_withImport program, List.flatMap_cons, leaf]
  simp [List.mem_flatMap]

end Import

end Tree

section Program

variable {s : Store} {root : Nat} {body : Range} {span : Span}
  (found : s.node? (some root) = some ⟨.program body, span⟩)

include found

theorem Prologue.insert_eq (L : LibraryNames) :
    ({} : Prologue).insert s (some root) L = (do
      let (id, s₁) ← s.alloc (.importDefault L.library L.source) span
      let (longer, s₂) ← s₁.prepend body (some id)
      let s' ← s₂.replace (some root) (.program longer)
      return (⟨some id⟩, s')) := by
  have node : s.node (some root) = .ok ⟨.program body, span⟩ := Store.node_eq_ok_iff.mpr found
  unfold Prologue.insert
  rw [node, if_neg (by simp [Prologue.isInserted])]
  rfl

variable {τ : Type} [Naming τ] {judge : Judge} {config : Config} {names : τ} {scopes : Scopes}
  (resolved : s.resolve (some root) = .ok scopes)

include resolved

theorem lowerBy_of_refused {fault : Fault}
    (refused : ({} : Prologue).insert s (some root) (config.intern names).1 = .error fault) :
    lowerBy judge config s (some root) names = .error fault := by
  unfold lowerBy
  rw [found]
  exact (bind_of_eq resolved).trans (bind_of_error refused)

theorem lowerBy_of_inserted {x : Nat} {s₀ : Store}
    (inserted : ({} : Prologue).insert s (some root) (config.intern names).1 =
      .ok (⟨some x⟩, s₀)) :
    lowerBy judge config s (some root) names = (do
      let (_, q) ← (config.engine judge names).1.lowerSlot (some root)
        { store := s₀, names := (config.intern names).2, scopes }
      return ⟨q.store, q.names, .ok ⟨x, q.facts, q.scopes, q.tally⟩⟩) := by
  unfold lowerBy
  rw [found]
  exact (bind_of_eq resolved).trans (bind_of_eq inserted)

end Program

section Insert

variable {s : Store} {T : Tree Nat Name} {body : List (Tree.Part Nat Name)}
  (program : T.kind = .program body) (short : body.length < Store.maxListLength) (L : LibraryNames)

include program short

theorem Store.Holds.insert (holds : s.Holds T) :
    ∃ s', Attains (({} : Prologue).insert s (some T.tag) L) (⟨some s.size⟩, s') s s' ∧
      s.Evolves (· = T.tag) s' ∧ s'.size = s.size + 1 ∧
      s'.Holds (T.withImport L.library L.source s.size) := by
  obtain ⟨range, span, found, lists⟩ := Store.shape_tree_iff.mp holds.top
  rw [program] at found lists
  have old : T.tag < s.size := holds.lt_size T.tag_mem_ids
  let s₁ := s.push (.importDefault L.library L.source) span
  have grown₁ : s.Evolves (fun _ => False) s₁ := Store.evolves_push ..
  have read := grown₁.list (lists body (by simp [Kind.parts]))
  obtain ⟨range', s₂, stored⟩ := s₁.exists_append (some s.size :: body.map (Option.map Tree.tag))
  have grown₂ : s₁.Evolves (fun _ => False) s₂ := Store.evolves_append stored
  have size₂ : s₂.size = s.size + 1 := by
    rw [Store.size_append stored]
    exact Store.size_push ..
  obtain ⟨s', replaced, own⟩ := Store.replace_of_lt (x := T.tag) (s := s₂) (by omega) (.program range')
  have grown₃ := Store.evolves_replace replaced
  have all : s.Evolves (· = T.tag) s' :=
    ((grown₁.trans grown₂).mono fun _ _ => False.elim).trans grown₃
  have prepended : Attains (s₁.prepend range (some s.size)) (range', s₂) s₁ s₂ := by
    rw [Store.prepend_eq_allocList read]
    exact Store.allocList_attains (by simpa using Nat.succ_le_of_lt short) stored
  refine ⟨s', ?_, all, (Store.size_replace replaced).trans size₂, ?_⟩
  · rw [Prologue.insert_eq found]
    exact (s.alloc_attains _ span).bind (prepended.bind ((Store.replace_attains replaced).map _))
  · have imported : s'.kind (some s.size) = .ok (.importDefault L.library L.source) := by
      have first : s₁.kind (some s.size) = .ok (.importDefault L.library L.source) :=
        Store.kind_of_node? (Store.node?_push_self ..)
      exact grown₃.kind (grown₂.kind first id) (by omega)
    have list := grown₃.list (Store.list_append stored)
    have held : ∀ c ∈ (T.withImport L.library L.source s.size).children, s'.Holds c := by
      intro c child
      rw [Tree.children_withImport program] at child
      rcases List.mem_cons.mp child with rfl | child
      · exact Store.holds_leaf rfl imported
      · exact Setup.holds_child holds all child
    rw [Tree.withImport_eq program] at held ⊢
    refine Store.holds_node own (fun list' mem => ?_) held
    have same : list' = some (.node s.size (.importDefault L.library L.source)) :: body := by
      simpa [Kind.parts] using mem
    rw [same, list]
    rfl

theorem Tree.ListsFit.withImport (fit : T.ListsFit) (x : Nat) :
    (T.withImport L.library L.source x).ListsFit := by
  intro u below list mem
  rcases (mem_subtrees_withImport program ..).mp below with rfl | rfl | ⟨c, child, below⟩
  · rw [withImport_eq program] at mem
    have same : list = some (.node x (.importDefault L.library L.source)) :: body := by
      simpa [Tree.kind, Kind.parts] using mem
    rw [same]
    exact short
  · simp [Tree.kind, Kind.parts] at mem
  · exact fit u (mem_subtrees_of_child child below) list mem

omit short in
theorem Tree.CalleesPresent.withImport (callees : T.CalleesPresent) (x : Nat) :
    (T.withImport L.library L.source x).CalleesPresent := by
  intro u below callee args call
  rcases (mem_subtrees_withImport program ..).mp below with rfl | rfl | ⟨c, child, below⟩
  · rw [withImport_eq program] at call
    cases call
  · cases call
  · exact callees u (mem_subtrees_of_child child below) callee args call

end Insert

namespace WellFormed

variable {s : Store} {T : Tree Nat Name}

theorem insert (h : WellFormed s T) (L : LibraryNames) :
    ∃ s', Attains (({} : Prologue).insert s (some T.tag) L) (⟨some s.size⟩, s') s s' ∧
      s.Evolves (· = T.tag) s' ∧ s'.size = s.size + 1 ∧
      s'.Holds (T.withImport L.library L.source s.size) := by
  obtain ⟨body, program, short⟩ := h.program
  exact h.holds.insert program short L

/-- The new tree of a well-formed unit can be walked over. -/
theorem withImport (h : WellFormed s T) (L : LibraryNames) :
    (T.withImport L.library L.source s.size).ids.Nodup ∧
      (T.withImport L.library L.source s.size).ListsFit ∧
      (T.withImport L.library L.source s.size).CalleesPresent := by
  obtain ⟨body, program, short⟩ := h.program
  refine ⟨?_, h.fit.withImport program short L s.size, h.callees.withImport program L s.size⟩
  have outside {x : Nat} (mem : x ∈ T.children.flatMap Tree.ids) : x < s.size :=
    h.holds.lt_size (Tree.mem_ids_of_below mem)
  have top := h.holds.lt_size T.tag_mem_ids
  rw [Tree.ids_withImport program]
  refine List.nodup_cons.mpr ⟨fun mem => ?_, List.nodup_cons.mpr ⟨fun mem => ?_, ?_⟩⟩
  · rcases List.mem_cons.mp mem with same | mem
    · omega
    · exact Tree.tag_not_mem_below h.distinct mem
  · exact Nat.lt_irrefl _ (outside mem)
  · exact Tree.nodup_children h.distinct

end WellFormed

/-! ## The pass over a unit -/

namespace Setup

variable {τ : Type} (C : Setup) (names : τ)

def start : Pass τ where
  store := C.store
  names := names
  scopes := C.scopes

theorem ready_start : C.Ready (C.start names) {} C.tree where
  below := C.tree.self_mem_subtrees
  holds := C.holds
  untouched _ _ := by simp [start, Untouched, Facts.isReplaced, Facts.isSettled]
  waiting _ _ := List.not_mem_nil

variable [Naming τ]

theorem progress_start : C.Progress names (C.start names) {} where
  grown := .refl _
  interned := .refl
  fates _ _ := ⟨fun marked => by simp [start, Facts.isReplaced] at marked, fun _ => .same rfl⟩
  references _ _ := rfl
  unreferenced := C.unreferenced
  declarations _ := rfl
  replaced _ _ := by simp [start, Facts.isReplaced]
  tainted _ _ := by simp [start, Policy.evidence, Facts.isTainted]
  bindings _ := by simp [start, Facts.isBindingTainted]
  blank _ _ := by simp [start, Facts.isReplaced, Facts.isSettled]
  counts rule := by
    have none : C.tree.uses C.library.constructor
        (fun x => (C.start names).facts.isReplaced (some x)) rule = 0 := by
      simp [Tree.uses, Tree.replaced, start, Facts.isReplaced]
    rw [none]
    cases rule <;> rfl

/-- The pass over the tree of a setup succeeds with every faithful judge. -/
theorem runs_lowerSlot : ∃ q' T', C.Runs (fun judge => (C.engine judge).lowerSlot (some C.tree.tag))
      (C.start names) () q' ∧
    C.Progress names q' (C.policy.plan (C.tree.tour none) {}) ∧
    C.Done names (C.start names) q' C.tree T' ∧ ∀ v ∈ T'.subtrees, C.Finished q' v := by
  have bound := C.holds.length_le C.distinct
  have walk : C.Walks names (C.store.size + 3) C.tree :=
    walks names C.tree.self_mem_subtrees (by omega)
  obtain ⟨q', T', run, progress, done, settled⟩ :=
    walk (C.start names) {} none (C.progress_start names) (C.ready_start names)
  refine ⟨q', T', .get (fun _ _ _ _ => rfl) run, progress, done, fun v below => ?_⟩
  by_cases top : v.tag = C.tree.tag
  · exact .inl (top ▸ settled)
  · exact done.finished v below top

end Setup

/-- What is left by the pass over a unit, with the setup that it started from. -/
structure UnitRun {τ : Type} [Naming τ] (config : Config) (s : Store) (T : Tree Nat Name)
    (names : τ) where
  setup : Setup
  final : Pass τ
  lowered : Tree Nat Name
  resolved : s.resolve (some T.tag) = .ok setup.scopes
  library : setup.library = (config.intern names).1
  memberCalls : setup.memberCalls = config.memberCalls
  tree : setup.tree = T.withImport setup.library.library setup.library.source s.size
  grown : s.Evolves (· = T.tag) setup.store
  size : setup.store.size = s.size + 1
  /-- All judges come to the final state, or to the same fault because it would be full. -/
  ends : (∀ (judge : Judge) (Agrees : Facts → Facts → Prop), setup.Faithful judge Agrees →
      Agrees {} {} → ∃ f, lowerBy judge config s (some T.tag) names = .ok ⟨final.store, final.names,
        .ok ⟨s.size, f, final.scopes, final.tally⟩⟩ ∧ Agrees f final.facts) ∧
      (s.size ≤ Store.maxIndex → final.store.size ≤ Store.maxIndex) ∨
    (∃ fault : Fault, fault.isOverflow = true ∧
      ∀ (judge : Judge) (Agrees : Facts → Facts → Prop), setup.Faithful judge Agrees →
        Agrees {} {} → lowerBy judge config s (some T.tag) names = .error fault) ∧
      final.store.IsFull
  progress : setup.Progress (config.intern names).2 final
    (setup.policy.plan (setup.tree.tour none) {})
  done : setup.Done (config.intern names).2 (setup.start (config.intern names).2) final setup.tree
    lowered
  finished : ∀ v ∈ lowered.subtrees, setup.Finished final v

namespace UnitRun

variable {config : Config} {s : Store} {T u : Tree Nat Name}

section

variable {τ : Type} [Naming τ] {names : τ} (run : UnitRun config s T names)

theorem tag : run.setup.tree.tag = T.tag := by
  rw [run.tree, Tree.withImport]
  split <;> rfl

section Room

variable (room : ¬ Overflows (lower config s (some T.tag) names))

include room

/-- What the caching judge leaves, with facts that agree with the final ones. -/
theorem lower_agrees {Agrees : Facts → Facts → Prop} (faithful : run.setup.Faithful .cached Agrees)
    (start : Agrees {} {}) : ∃ facts, lower config s (some T.tag) names =
      .ok ⟨run.final.store, run.final.names,
        .ok ⟨s.size, facts, run.final.scopes, run.final.tally⟩⟩ ∧
    Agrees facts run.final.facts := by
  rcases run.ends with ⟨arrives, -⟩ | ⟨⟨fault, overflow, stuck⟩, -⟩
  · exact arrives .cached Agrees faithful start
  · exact absurd ⟨fault, stuck .cached Agrees faithful start, overflow⟩ room

theorem lower_remembers : ∃ facts, lower config s (some T.tag) names =
      .ok ⟨run.final.store, run.final.names,
        .ok ⟨s.size, facts, run.final.scopes, run.final.tally⟩⟩ ∧
    run.setup.Remembers facts run.final.facts :=
  run.lower_agrees room run.setup.faithful_cached run.setup.remembers_empty

theorem lower_eq : ∃ facts, lower config s (some T.tag) names =
      .ok ⟨run.final.store, run.final.names,
        .ok ⟨s.size, facts, run.final.scopes, run.final.tally⟩⟩ ∧
    ∀ slot, facts.isReplaced slot = run.final.facts.isReplaced slot := by
  obtain ⟨facts, ran, remembers⟩ := run.lower_remembers room
  exact ⟨facts, ran, remembers.replaced⟩

end Room

theorem overflows (few : s.size ≤ Store.maxIndex) (many : Store.maxIndex < run.final.store.size) :
    Overflows (lower config s (some T.tag) names) := by
  rcases run.ends with ⟨-, kept⟩ | ⟨⟨fault, overflow, stuck⟩, -⟩
  · exact absurd (kept few) (Nat.not_le.mpr many)
  · exact ⟨fault, stuck .cached _ run.setup.faithful_cached run.setup.remembers_empty, overflow⟩

variable (h : WellFormed s T)

include h

theorem children : run.setup.tree.children =
    .node s.size (.importDefault run.setup.library.library run.setup.library.source) ::
      T.children := by
  obtain ⟨body, program, -⟩ := h.program
  rw [run.tree, Tree.children_withImport program]

theorem mem_ids {x : Nat} : x ∈ run.setup.tree.ids ↔ x = s.size ∨ x ∈ T.ids := by
  obtain ⟨body, program, -⟩ := h.program
  rw [run.tree, Tree.ids_withImport program, T.ids_eq, List.mem_cons, List.mem_cons, List.mem_cons]
  exact or_left_comm

theorem mem_subtrees {v : Tree Nat Name} :
    v ∈ run.setup.tree.subtrees ↔ v = run.setup.tree ∨
      v = .node s.size (.importDefault run.setup.library.library run.setup.library.source) ∨
        ∃ c ∈ T.children, v ∈ c.subtrees := by
  obtain ⟨body, program, -⟩ := h.program
  rw [run.tree]
  exact Tree.mem_subtrees_withImport program ..

theorem mem_subtrees_of_ne (below : u ∈ T.subtrees) (other : u ≠ T) :
    u ∈ run.setup.tree.subtrees := by
  rcases Tree.mem_subtrees_iff.mp below with same | deep
  · exact (other same).elim
  · exact (run.mem_subtrees h).mpr (.inr (.inr deep))

end

/-- The names of the configuration are still those at the start of the pass. -/
theorem named {names : Names} (run : UnitRun config s T names) (consistent : names.Consistent) :
    config.Named run.final.names run.setup.library := by
  rw [run.library]
  exact (config.named_intern consistent).grows run.progress.interned

end UnitRun

/-- A well-formed unit can be lowered, or its store gets full. -/
theorem WellFormed.run {τ : Type} [Naming τ] {s : Store} {T : Tree Nat Name} (h : WellFormed s T)
    (config : Config) (names : τ) : Nonempty (UnitRun config s T names) := by
  obtain ⟨scopes, resolved, unreferenced⟩ := Store.exists_resolve h.holds h.entries
  obtain ⟨body, program, short⟩ := h.program
  let L := (config.intern names).1
  obtain ⟨s₀, inserted, grown, size, holds⟩ := h.insert L
  obtain ⟨distinct, fit, callees⟩ := h.withImport L
  let C : Setup := {
    library := L
    memberCalls := config.memberCalls
    scopes := scopes
    store := s₀
    tree := T.withImport L.library L.source s.size
    holds, distinct, fit, callees
    unreferenced := fun x outside => unreferenced x fun inside => by
      have := h.holds.lt_size inside
      omega }
  obtain ⟨q', T', run, progress, done, finished⟩ := C.runs_lowerSlot (config.intern names).2
  refine ⟨C, q', T', resolved, rfl, rfl, rfl, grown, size, ?_, progress, done, finished⟩
  obtain ⟨range, span, found, -⟩ := Store.shape_tree_iff.mp h.holds.top
  rw [program] at found
  have same : C.tree.tag = T.tag := Tree.tag_withImport program ..
  rw [same] at run
  rcases inserted.ends with ⟨inserted, few⟩ | ⟨⟨fault, stuck, overflow⟩, full⟩
  · rcases run.ends with ⟨arrives, few'⟩ | ⟨⟨fault, overflow, stuck⟩, full⟩
    · refine .inl ⟨fun judge Agrees faithful first => ?_, few' ∘ few⟩
      obtain ⟨f, ran, agrees⟩ := arrives judge Agrees faithful {} first
      exact ⟨f, (lowerBy_of_inserted found resolved inserted).trans (bind_of_eq ran), agrees⟩
    · refine .inr ⟨⟨fault, overflow, fun judge Agrees faithful first => ?_⟩, full⟩
      have ran := stuck judge Agrees faithful {} first
      exact (lowerBy_of_inserted found resolved inserted).trans (bind_of_error ran)
  · refine .inr ⟨⟨fault, overflow, fun _ _ _ _ => ?_⟩, run.grown.isFull full⟩
    exact lowerBy_of_refused found resolved stuck

/-! ## A small unit -/

namespace Sample

/--
The names and the store of `let a = 5n; a += 2n; const b = BigInt(a) * -a;
Math.pow(a, b); 1 + 2;`.
-/
def names : Names :=
  ["a", "5", "BigInt", "2", "Math", "pow", "b", "1"].foldl (fun t text => (t.intern text).2) .fresh

@[inherit_doc names]
def store : Store where
  nodes := #[
    ⟨.bigInt 2, ⟨8, 10⟩⟩, ⟨.declarator 1 (some 0), ⟨4, 10⟩⟩, ⟨.varDecl .let_ ⟨0, 1⟩, ⟨0, 11⟩⟩,
    ⟨.ident 1, ⟨12, 13⟩⟩, ⟨.bigInt 4, ⟨17, 19⟩⟩, ⟨.assign .add (some 3) (some 4), ⟨12, 19⟩⟩,
    ⟨.exprStmt (some 5), ⟨12, 20⟩⟩,
    ⟨.ident 3, ⟨31, 37⟩⟩, ⟨.ident 1, ⟨38, 39⟩⟩, ⟨.call (some 7) ⟨1, 1⟩, ⟨31, 40⟩⟩,
    ⟨.ident 1, ⟨44, 45⟩⟩, ⟨.unary .neg (some 10), ⟨43, 45⟩⟩,
    ⟨.binary .mul (some 9) (some 11), ⟨31, 45⟩⟩, ⟨.declarator 7 (some 12), ⟨27, 45⟩⟩,
    ⟨.varDecl .const ⟨2, 1⟩, ⟨21, 46⟩⟩,
    ⟨.ident 5, ⟨47, 51⟩⟩, ⟨.member (some 15) 6, ⟨47, 55⟩⟩, ⟨.ident 1, ⟨56, 57⟩⟩,
    ⟨.ident 7, ⟨59, 60⟩⟩, ⟨.call (some 16) ⟨3, 2⟩, ⟨47, 61⟩⟩, ⟨.exprStmt (some 19), ⟨47, 62⟩⟩,
    ⟨.number 8, ⟨63, 64⟩⟩, ⟨.number 4, ⟨67, 68⟩⟩, ⟨.binary .add (some 21) (some 22), ⟨63, 68⟩⟩,
    ⟨.exprStmt (some 23), ⟨63, 69⟩⟩, ⟨.program ⟨5, 5⟩, ⟨0, 69⟩⟩]
  lists := #[some 1, some 8, some 13, some 17, some 18, some 2, some 6, some 14, some 20, some 24]

def tree : Tree Nat Name :=
  match store.tree 25 with
  | .ok T => T
  | .error _ => .node 25 (.program [])

theorem wellFormed : WellFormed store tree := by decide +kernel

theorem consistent : names.Consistent := Names.consistent_fresh.interned _

theorem room : ¬ Overflows (lower {} store (some tree.tag) names) := by decide +kernel

end Sample

end BigLower
