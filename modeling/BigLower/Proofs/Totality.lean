import BigLower.Proofs.Soundness

/-! # Lowering comes to an end

A root that is no program is rejected, and nothing is changed. A program is lowered
without a fault if all that can be reached from it can be read, none of it is below
itself, there is room for the import, and the store does not get full; nodes may be
shared, and most parts may be absent. Without room for the import the fault says so.
-/

namespace BigLower

namespace Store

/-- A program with all that can be reached from it, where nodes may be at several places. -/
structure IsSharedUnit (s : Store) (root : Nat) (body : Range) : Prop where
  program : s.kind (some root) = .ok (.program body)
  /-- Every node is in the store with all its lists. -/
  readable : ∀ x, s.Reaches root x → ∃ children, s.children (some x) = .ok children
  /-- No node is below itself. -/
  acyclic : ∀ x, s.Reaches root x → ¬ Relation.TransGen s.IsChild x x
  /-- No statement, declarator or parameter is absent. -/
  entries : ∀ x, s.Reaches root x → ∀ k, s.kind (some x) = .ok k → ∀ range ∈ k.fullLists,
    ∀ slots, s.list range = .ok slots → none ∉ slots
  /-- Every call has a callee. -/
  callees : ∀ x, s.Reaches root x → ∀ args, s.kind (some x) ≠ .ok (.call none args)
  /-- No list is longer than a range can count. -/
  fit : ∀ x, s.Reaches root x → ∀ k, s.kind (some x) = .ok k → ∀ range, .inr range ∈ k.parts →
    range.len ≤ maxListLength

variable {s : Store} {root : Nat} {body : Range}

theorem IsSharedUnit.tree (h : s.IsSharedUnit root body) : ∃ (T : Tree Nat Name)
    (statements : List (Tree.Part Nat Name)), T.tag = root ∧ s.Holds T ∧
      T.kind = .program statements ∧ statements.length = body.len ∧
      s.list body = .ok (statements.map (Option.map Tree.tag)) ∧
      T.EntriesPresent ∧ T.CalleesPresent ∧ T.ListsFit := by
  obtain ⟨T, rfl, holds⟩ := holds_of_acyclic h.readable h.acyclic
  obtain ⟨range, kind, lists⟩ := holds.kind_list
  cases own : T.kind with
  | program statements =>
    rw [own] at kind lists
    cases h.program.symm.trans kind
    have read := lists statements (by simp [Kind.parts])
    have length : statements.length = range.len := by simpa using length_of_list read
    exact ⟨T, statements, rfl, holds, own, length, read, holds.entriesPresent_iff.mpr h.entries,
      holds.calleesPresent_iff.mpr h.callees, holds.listsFit_iff.mpr h.fit⟩
  | _ =>
    rw [own] at kind
    cases h.program.symm.trans kind

theorem Holds.isSharedUnit {T : Tree Nat Name} (holds : s.Holds T) (entries : T.EntriesPresent)
    (callees : T.CalleesPresent) (fit : T.ListsFit)
    (program : s.kind (some T.tag) = .ok (.program body)) : s.IsSharedUnit T.tag body where
  program := program
  readable x reached := by
    obtain ⟨u, below, rfl⟩ := holds.mem_of_reaches reached
    exact ⟨_, (holds.subtree below).children⟩
  acyclic _ reached := holds.acyclic reached
  entries := holds.entriesPresent_iff.mp entries
  callees := holds.calleesPresent_iff.mp callees
  fit := holds.listsFit_iff.mp fit

def HasIndices (s : Store) : Prop := s.size < maxIndex ∧ s.lists.size ≤ maxIndex

instance : Decidable s.HasIndices := inferInstanceAs (Decidable (_ ∧ _))

section Import

variable {span : Span} (found : s.node? (some root) = some ⟨.program body, span⟩) (L : LibraryNames)

include found

theorem insert_of_full (full : ¬ s.HasIndices) :
    Overflows (({} : Prologue).insert s (some root) L) := by
  rw [Prologue.insert_eq found]
  rcases (s.alloc_attains (.importDefault L.library L.source) span).ends with ⟨added, -⟩ | ⟨stuck, -⟩
  · have few := (alloc_eq_ok_iff.mp added).1
    have many : maxIndex < s.lists.size := Nat.lt_of_not_le fun entries => full ⟨few, entries⟩
    rw [bind_of_eq added]
    exact Overflows.bind ⟨_, if_pos many, rfl⟩ _
  · exact stuck.bind _

/-- There is no room for an import in a program that is as long as can be. -/
theorem insert_of_long (indices : s.HasIndices) {slots : List Slot} (read : s.list body = .ok slots)
    (long : body.len = maxListLength) :
    ({} : Prologue).insert s (some root) L = .error (.listTooLong (maxListLength + 1)) := by
  let s₁ := s.push (.importDefault L.library L.source) span
  have added : s.alloc (.importDefault L.library L.source) span = .ok (s.size, s₁) :=
    alloc_eq_ok_iff.mpr ⟨indices.1, rfl, rfl⟩
  have grown : s.Evolves (fun _ => False) s₁ := evolves_push ..
  have length : (some s.size :: slots).length = maxListLength + 1 := by
    rw [List.length_cons, length_of_list read, long]
  have refused : s₁.prepend body (some s.size) = .error (.listTooLong (maxListLength + 1)) := by
    rw [prepend_eq_allocList (grown.list read), ← length]
    exact allocList_of_long indices.2 (by omega)
  rw [Prologue.insert_eq found]
  exact (bind_of_eq added).trans (bind_of_error refused)

end Import

end Store

/-- The pass over a held tree starts in a sound state, and comes to an end or fills the store. -/
theorem Engine.ensures_lowerSlot {τ : Type} [Naming τ] {E : Engine} (cached : E.judge = .cached)
    {s : Store} {T : Tree Nat Name} (holds : s.Holds T) (fit : T.ListsFit) (callees : T.CalleesPresent)
    (names : τ) (scopes : Scopes) :
    Ensures (·.isOverflow) (E.lowerSlot (some T.tag)) { store := s, names, scopes }
      fun _ _ => True := by
  have sound : Sound T s {} :=
    ⟨holds.ranks fit callees, fun u below _ => (holds.subtree below).children⟩
  have bound := holds.height_le
  refine .get ((ensures_lowered cached T.self_mem_subtrees ?_ sound).mono fun _ _ _ => trivial)
  exact Nat.add_le_add bound (by omega)

section Units

variable {τ : Type} [Naming τ] {s : Store} {root : Nat} {body : Range}

theorem lower_of_absent {slot : Slot} (absent : s.node? slot = none) (config : Config)
    (names : τ) : lower config s slot names = .ok ⟨s, names, .error (.invalidRoot slot)⟩ := by
  unfold lower lowerBy
  rw [absent]
  rfl

theorem lower_of_other {slot : Slot} {node : Node} (found : s.node? slot = some node)
    (other : ∀ body, node.kind ≠ .program body) (config : Config) (names : τ) :
    lower config s slot names = .ok ⟨s, names, .error (.notAProgram node.kind.label)⟩ := by
  obtain ⟨kind, span⟩ := node
  unfold lower lowerBy
  rw [found]
  cases kind with
  | program body => exact (other body rfl).elim
  | _ => rfl

theorem lower_of_steps {config : Config} {names : τ} {s₀ : Store} {x : Nat} {scopes : Scopes}
    {q : Pass τ} (program : s.kind (some root) = .ok (.program body))
    (resolved : s.resolve (some root) = .ok scopes)
    (inserted : ({} : Prologue).insert s (some root) (config.intern names).1 = .ok (⟨some x⟩, s₀))
    (ran : (config.engine .cached names).1.lowerSlot (some root)
      { store := s₀, names := (config.intern names).2, scopes } = .ok ((), q)) :
    lower config s (some root) names =
      .ok ⟨q.store, q.names, .ok ⟨x, q.facts, q.scopes, q.tally⟩⟩ := by
  obtain ⟨⟨kind, span⟩, found, same⟩ := Store.kind_eq_ok_iff.mp program
  cases same
  exact (lowerBy_of_inserted found resolved inserted).trans (bind_of_eq ran)

/-- A unit with room for the import goes through all steps, if the store does not get full. -/
theorem Store.IsSharedUnit.steps (h : s.IsSharedUnit root body)
    (short : body.len < Store.maxListLength) {config : Config} {names : τ}
    (room : ¬ Overflows (lower config s (some root) names)) :
    ∃ (scopes : Scopes) (s₀ : Store) (q : Pass τ), s.resolve (some root) = .ok scopes ∧
      ({} : Prologue).insert s (some root) (config.intern names).1 = .ok (⟨some s.size⟩, s₀) ∧
      (config.engine .cached names).1.lowerSlot (some root)
        { store := s₀, names := (config.intern names).2, scopes } = .ok ((), q) := by
  obtain ⟨T, statements, rfl, holds, program, length, -, entries, callees, fit⟩ := h.tree
  obtain ⟨scopes, resolved, -⟩ := Store.exists_resolve holds entries
  obtain ⟨⟨kind, span⟩, found, same⟩ := Store.kind_eq_ok_iff.mp h.program
  cases same
  let L := (config.intern names).1
  have short' : statements.length < Store.maxListLength := by omega
  obtain ⟨s₀, inserted, -, -, holds₀⟩ := holds.insert program short' L
  let E : Engine := (config.engine .cached names).1
  have passed := Engine.ensures_lowerSlot (E := E) rfl holds₀
    (fit.withImport program short' L s.size) (callees.withImport program L s.size)
    (config.intern names).2 scopes
  rw [Tree.tag_withImport program] at passed
  rcases inserted.ends with ⟨inserted, -⟩ | ⟨⟨fault, stuck, overflow⟩, -⟩
  · rcases passed with ⟨fault, stuck, overflow⟩ | ⟨_, q, ran, -⟩
    · have ends := (lowerBy_of_inserted found resolved inserted).trans (bind_of_error stuck)
      exact absurd ⟨fault, ends, overflow⟩ room
    · exact ⟨scopes, s₀, q, resolved, inserted, ran⟩
  · exact absurd ⟨fault, lowerBy_of_refused found resolved stuck, overflow⟩ room

theorem lower_of_room (h : s.IsSharedUnit root body) (short : body.len < Store.maxListLength)
    {config : Config} {names : τ} (room : ¬ Overflows (lower config s (some root) names)) :
    ∃ (store : Store) (names' : τ) (outcome : Outcome),
      lower config s (some root) names = .ok ⟨store, names', .ok outcome⟩ := by
  obtain ⟨scopes, s₀, q, resolved, inserted, ran⟩ := h.steps short room
  exact ⟨_, _, _, lower_of_steps h.program resolved inserted ran⟩

/-- A program that is as long as can be is not lowered. -/
theorem lower_of_long (h : s.IsSharedUnit root body) (long : body.len = Store.maxListLength)
    (config : Config) (names : τ) :
    lower config s (some root) names = .error (.listTooLong (Store.maxListLength + 1)) ∨
      ¬ s.HasIndices ∧ Overflows (lower config s (some root) names) := by
  obtain ⟨T, statements, rfl, holds, program, length, read, entries, -, -⟩ := h.tree
  obtain ⟨scopes, resolved, -⟩ := Store.exists_resolve holds entries
  obtain ⟨⟨kind, span⟩, found, same⟩ := Store.kind_eq_ok_iff.mp h.program
  cases same
  let L := (config.intern names).1
  by_cases indices : s.HasIndices
  · exact .inl (lowerBy_of_refused found resolved (Store.insert_of_long found L indices read long))
  · obtain ⟨fault, stuck, overflow⟩ := Store.insert_of_full found L indices
    exact .inr ⟨indices, fault, lowerBy_of_refused found resolved stuck, overflow⟩

end Units

/--
What lowering does with any root. One that is not in the store, or is no program, is
rejected, and the store and the names are as they were. A program with all that can
be reached from it is lowered exactly if it has room for the import, and otherwise
the fault is that a list got too long, unless the store has no room for all the nodes.
-/
theorem lower_total {τ : Type} [Naming τ] (config : Config) (s : Store) (root : Slot) (names : τ) :
    (s.node? root = none →
      lower config s root names = .ok ⟨s, names, .error (.invalidRoot root)⟩) ∧
    (∀ node, s.node? root = some node → (∀ body, node.kind ≠ .program body) →
      lower config s root names = .ok ⟨s, names, .error (.notAProgram node.kind.label)⟩) ∧
    ∀ x body, root = some x → s.IsSharedUnit x body → ¬ Overflows (lower config s root names) →
      ((∃ (store : Store) (names' : τ) (outcome : Outcome),
        lower config s root names = .ok ⟨store, names', .ok outcome⟩) ↔ body.len ≤ 65534) ∧
      (body.len = 65535 → ∃ fault, lower config s root names = .error fault ∧
        fault.message = "node list too long: 65536 exceeds u16::MAX") := by
  refine ⟨fun absent => lower_of_absent absent config names,
    fun node found other => lower_of_other found other config names, fun x body same unit room => ?_⟩
  subst same
  have top := unit.fit x .refl _ unit.program body (by simp [Kind.parts])
  have refused (long : body.len = Store.maxListLength) :=
    (lower_of_long unit long config names).resolve_right fun stuck => room stuck.2
  refine ⟨⟨fun done => ?_, fun short => ?_⟩, fun long => ?_⟩
  · by_contra other
    have long : body.len = Store.maxListLength := by
      simp only [Store.maxListLength] at top ⊢
      omega
    obtain ⟨store, names', outcome, ran⟩ := done
    cases (refused long).symm.trans ran
  · refine lower_of_room unit ?_ room
    simp only [Store.maxListLength]
    omega
  · exact ⟨_, refused long, by decide +kernel⟩

namespace Sample

/-- The store of `a += 2n;` twice, as one shared statement, and of a statement without expression. -/
def sharedStore : Store where
  nodes := #[
    ⟨.ident 1, ⟨0, 1⟩⟩, ⟨.bigInt 4, ⟨5, 7⟩⟩, ⟨.assign .add (some 0) (some 1), ⟨0, 7⟩⟩,
    ⟨.exprStmt (some 2), ⟨0, 8⟩⟩, ⟨.exprStmt none, ⟨9, 10⟩⟩, ⟨.program ⟨0, 3⟩, ⟨0, 10⟩⟩]
  lists := #[some 3, some 3, some 4]

@[inherit_doc sharedStore]
def sharedTree : Tree Nat Name :=
  match sharedStore.tree 5 with
  | .ok T => T
  | .error _ => .node 5 (.program [])

theorem sharedUnit : sharedStore.IsSharedUnit 5 ⟨0, 3⟩ :=
  @Store.Holds.isSharedUnit _ _ sharedTree (by decide +kernel) (by decide +kernel)
    (by decide +kernel) (by decide +kernel) (by decide +kernel)

def repeatedStore (n : Nat) : Store where
  nodes := #[⟨.exprStmt none, ⟨0, 1⟩⟩, ⟨.program ⟨0, n⟩, ⟨0, 1⟩⟩]
  lists := Array.replicate n (some 0)

def repeatedTree (n : Nat) : Tree Nat Name :=
  .node 1 (.program (List.replicate n (some (.node 0 (.exprStmt none)))))

theorem mem_subtrees_repeated {n : Nat} {u : Tree Nat Name} (below : u ∈ (repeatedTree n).subtrees) :
    u = repeatedTree n ∨ u = .node 0 (.exprStmt none) := by
  rcases Tree.mem_subtrees_iff.mp below with same | ⟨c, child, inside⟩
  · exact .inl same
  · rw [Tree.mem_children_iff] at child
    have same : n ≠ 0 ∧ c = .node 0 (.exprStmt none) := by
      simpa [repeatedTree, Tree.kind, Kind.slots, Kind.parts] using child
    rw [same.2, Tree.subtrees_eq] at inside
    exact .inr (List.mem_singleton.mp inside)

theorem repeatedUnit {n : Nat} (filled : 0 < n) (short : n ≤ Store.maxListLength) :
    (repeatedStore n).IsSharedUnit 1 ⟨0, n⟩ := by
  have read : (repeatedStore n).list ⟨0, n⟩ = .ok (List.replicate n (some 0)) := by
    have other : n ≠ 0 := by omega
    simp [Store.list, repeatedStore, Range.isEmpty, Range.stop, other]
  have own {list : List (Tree.Part Nat Name)} (mem : .inr list ∈ (repeatedTree n).kind.parts) :
      list = List.replicate n (some (.node 0 (.exprStmt none))) := by
    simpa [repeatedTree, Tree.kind, Kind.parts] using mem
  have holds : (repeatedStore n).Holds (repeatedTree n) := by
    intro u below
    rcases mem_subtrees_repeated below with rfl | rfl
    · refine Store.shape_tree_iff.mpr ⟨⟨0, n⟩, ⟨0, 1⟩, rfl, fun list mem => ?_⟩
      rw [own mem, List.map_replicate]
      exact read
    · rfl
  refine holds.isSharedUnit (fun u below list mem absent => ?_) (fun u below callee args call => ?_)
    (fun u below list mem => ?_) rfl
  · rcases mem_subtrees_repeated below with rfl | rfl
    · rw [own (Kind.mem_parts_of_fullLists mem)] at absent
      cases List.eq_of_mem_replicate absent
    · simp [Tree.kind, Kind.fullLists] at mem
  · rcases mem_subtrees_repeated below with rfl | rfl <;> cases call
  · rcases mem_subtrees_repeated below with rfl | rfl
    · rw [own mem, List.length_replicate]
      exact short
    · simp [Tree.kind, Kind.parts] at mem

theorem repeated_room : ¬ Overflows (lower {} (repeatedStore 65535) (some 1) names) := by
  have unit : (repeatedStore 65535).IsSharedUnit 1 ⟨0, 65535⟩ :=
    repeatedUnit (by decide) (by decide)
  have indices : (repeatedStore 65535).HasIndices := by
    simp [Store.HasIndices, Store.size, repeatedStore, Store.maxIndex]
  rintro ⟨fault, ends, overflow⟩
  rcases lower_of_long unit rfl {} names with refused | ⟨full, -⟩
  · cases refused.symm.trans ends
    cases overflow
  · exact full indices

end Sample

/-- A shared statement is lowered once, and a statement more than there can be is too many. -/
theorem lower_total_sample :
    lower {} Sample.store none Sample.names =
      .ok ⟨Sample.store, Sample.names, .error (.invalidRoot none)⟩ ∧
    lower {} Sample.store (some 2) Sample.names =
      .ok ⟨Sample.store, Sample.names, .error (.notAProgram "variable declaration")⟩ ∧
    (∃ (store : Store) (names : Names) (outcome : Outcome),
      lower {} Sample.sharedStore (some 5) Sample.names = .ok ⟨store, names, .ok outcome⟩) ∧
    ∃ fault, lower {} (Sample.repeatedStore 65535) (some 1) Sample.names = .error fault ∧
      fault.message = "node list too long: 65536 exceeds u16::MAX" :=
  ⟨(lower_total {} Sample.store none Sample.names).1 rfl,
    (lower_total {} Sample.store (some 2) Sample.names).2.1 _ rfl nofun,
    ((lower_total {} Sample.sharedStore (some 5) Sample.names).2.2 5 _ rfl Sample.sharedUnit
      (by decide +kernel)).1.mpr (by decide),
    ((lower_total {} (Sample.repeatedStore 65535) (some 1) Sample.names).2.2 1 _ rfl
      (Sample.repeatedUnit (by decide) (by decide)) Sample.repeated_room).2 rfl⟩

end BigLower
