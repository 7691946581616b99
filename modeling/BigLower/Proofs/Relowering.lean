import BigLower.Proofs.Decisions
import BigLower.Proofs.Growth
import BigLower.Proofs.Quiet
import BigLower.Proofs.Rooted

/-! # Lowering a unit again

A lowered unit is a unit like any other, and it has no source of big integers. In
such a unit nothing is judged big, so a pass over it marks nothing, and what it
leaves differs by the import alone. This goes on as long as there is room for one
more import. The first lowering needs more room: it copies the targets of
assignments, and where these are inside each other it doubles them each time.
-/

namespace BigLower

/-! ## Trees without sources of big integers -/

namespace Tree

variable {constructor : Name} {T u : Tree Nat Name}

theorem IsClean.withImport {body : List (Part Nat Name)} (clean : T.IsClean constructor)
    (program : T.kind = .program body) (library source : Name) (x : Nat) :
    (T.withImport library source x).IsClean constructor := by
  intro u below
  rcases (mem_subtrees_withImport program ..).mp below with rfl | rfl | ⟨c, child, deep⟩
  · rw [withImport_eq program]
    rfl
  · rfl
  · exact clean u (mem_subtrees_of_child child deep)

end Tree

/-! ## Lowered units are units -/

theorem Tree.entriesPresent_iff_everywhere {T : Tree Nat Name} :
    T.EntriesPresent ↔ T.Everywhere fun k => ∀ list ∈ k.fullLists, false ∉ list := by
  refine forall₂_congr fun u _ => ?_
  simp only [outline, Kind.fullLists_map, List.mem_map, forall_exists_index, and_imp,
    forall_apply_eq_imp_iff₂, not_exists, not_and]
  refine forall₂_congr fun list _ => ⟨fun full part mem same => ?_, fun full mem => full none mem rfl⟩
  cases part with
  | none => exact full mem
  | some c => cases same

theorem Tree.EntriesPresent.withImport {T : Tree Nat Name} {body : List (Part Nat Name)}
    (entries : T.EntriesPresent) (program : T.kind = .program body) (library source : Name) (x : Nat) :
    (T.withImport library source x).EntriesPresent := by
  intro u below list mem
  rcases (mem_subtrees_withImport program ..).mp below with rfl | rfl | ⟨c, child, deep⟩
  · have own := entries T T.self_mem_subtrees body (by simp [program, Kind.fullLists])
    rw [withImport_eq program] at mem
    rw [List.mem_singleton.mp mem]
    simpa using own
  · cases mem
  · exact entries u (mem_subtrees_of_child child deep) list mem

namespace Tree.Lowers

variable {L : LibraryNames} {w : Spelling} {start : Nat} {R : Nat → Bool} {B : Nat → Option Nat}
  {T T' : Tree Nat Name}

theorem entriesPresent (h : Lowers L w start R B T T') (entries : T.EntriesPresent) :
    T'.EntriesPresent := by
  refine entriesPresent_iff_everywhere.mpr
    (h.everywhere ?_ (entriesPresent_iff_everywhere.mp entries))
  constructor <;> simp [Kind.fullLists]

/-- A program stays a program, and its statements are lowered one by one. -/
theorem eq_of_program (h : Lowers L w start R B T T') {body : List (Part Nat Name)}
    (program : T.kind = .program body) :
    ∃ f, T' = .node T.tag (.program (body.map (Option.map f))) ∧
      ∀ c, some c ∈ body → Lowers L w start R B c (f c) := by
  obtain ⟨x, k⟩ := T
  cases program
  cases h with
  | keep f _ _ _ below =>
    exact ⟨f, rfl, fun c mem => below c (child_of_list (by simp [Tree.kind, Kind.parts]) mem)⟩
  | _ => contradiction

end Tree.Lowers

theorem WellFormed.again {s s' : Store} {T : Tree Nat Name} (h : WellFormed s T) (L : LibraryNames)
    {body : List (Tree.Part Nat Name)} (program : T.kind = .program body)
    (holds : s'.Holds (T.withImport L.library L.source s.size))
    (room : body.length + 1 < Store.maxListLength) :
    WellFormed s' (T.withImport L.library L.source s.size) := by
  obtain ⟨distinct, fit, callees⟩ := h.withImport L
  refine ⟨holds, distinct, ?_, h.entries.withImport program _ _ _, callees, fit⟩
  rw [Tree.withImport_eq program]
  exact ⟨_, rfl, room⟩

/-- What is left of a unit by lowering is again a unit, if there is room. -/
theorem UnitRun.wellFormed {τ : Type} [Naming τ] {config : Config} {s : Store} {T : Tree Nat Name}
    {names : τ} (run : UnitRun config s T names) (h : WellFormed s T)
    {body : List (Tree.Part Nat Name)} (program : T.kind = .program body)
    (room : body.length + 1 < Store.maxListLength) : WellFormed run.final.store run.lowered := by
  have before := h.again run.setup.library program (run.tree ▸ run.setup.holds) room
  rw [← run.tree] at before
  obtain ⟨body', whole, short⟩ := before.program
  obtain ⟨f, lowered, -⟩ := run.done.lowers.eq_of_program whole
  have program' : ∃ list, run.lowered.kind = .program list ∧ list.length < Store.maxListLength :=
    ⟨_, by rw [lowered]; rfl, by simpa using short⟩
  exact ⟨run.done.holds, run.done.distinct, program', run.done.lowers.entriesPresent before.entries,
    run.done.lowers.calleesPresent before.callees, run.done.lowers.listsFit before.fit⟩

/-! ## Lowering a clean unit -/

/-- One lowering after another does nothing but import the library once more. -/
structure Relowered (L : LibraryNames) (root : Nat) (before after : Lowered Names) : Prop where
  /-- No rule is applied, and no node and no variable is tainted. -/
  idle : ∃ outcome, after.result = .ok outcome ∧ outcome.importNode = before.store.size ∧
    outcome.tally = {} ∧ (∀ x, outcome.facts.isTainted (some x) = false) ∧
      ∀ b, outcome.facts.isBindingTainted b = false
  names : after.names = before.names
  /-- The import is the only new node. -/
  size : after.store.size = before.store.size + 1
  imported : after.store.kind (some before.store.size) = .ok (.importDefault L.library L.source)
  /-- No other node has changed than the root, and that by the import alone. -/
  kept : before.store.Evolves (· = root) after.store
  program : ∃ range range' body, before.store.kind (some root) = .ok (.program range) ∧
    before.store.list range = .ok body ∧ after.store.kind (some root) = .ok (.program range') ∧
      after.store.list range' = .ok (some before.store.size :: body)

/-- A pass over a clean unit marks nothing, so it leaves the unit as the import made it. -/
theorem UnitRun.final_eq {τ : Type} [Naming τ] {config : Config} {s : Store} {T : Tree Nat Name}
    {names : τ} (run : UnitRun config s T names)
    (clean : run.setup.tree.IsClean run.setup.library.constructor) :
    run.final = { run.setup.start (config.intern names).2 with facts := run.final.facts } ∧
      (∀ slot, run.final.facts.isTainted slot = false) ∧
        ∀ b, run.final.facts.isBindingTainted b = false := by
  have progress := run.progress
  rw [Policy.plan_of_isClean _ clean] at progress
  have idle := run.done.idle fun x mem => by simp [progress.replaced x mem]
  refine ⟨idle.same, fun slot => ?_, fun b => by simp [progress.bindings]⟩
  rw [idle.tainted]
  simp [Setup.start, Facts.isTainted]

theorem UnitRun.idle {τ : Type} [Naming τ] {config : Config} {s : Store} {T : Tree Nat Name}
    {names : τ} (run : UnitRun config s T names) (h : WellFormed s T)
    (room : ¬ Overflows (lower config s (some T.tag) names))
    (clean : T.IsClean run.setup.library.constructor) :
    ∃ facts, lower config s (some T.tag) names = .ok ⟨run.setup.store, (config.intern names).2,
        .ok ⟨s.size, facts, run.setup.scopes, {}⟩⟩ ∧
      (∀ x, facts.isTainted (some x) = false) ∧ ∀ b, facts.isBindingTainted b = false := by
  obtain ⟨facts, ran, remembers⟩ := run.lower_remembers room
  obtain ⟨body, program, -⟩ := h.program
  have clean' : run.setup.tree.IsClean run.setup.library.constructor := by
    rw [run.tree]
    exact clean.withImport program _ _ _
  obtain ⟨same, untainted, unbound⟩ := run.final_eq clean'
  have quiet : run.setup.tree.IsQuiet (run.setup.evidence run.final.facts) :=
    ⟨clean', fun x _ => untainted _, fun u _ name _ => by simp [Setup.evidence, funext unbound]⟩
  rw [same] at ran
  exact ⟨facts, ran,
    fun x => remembers.isTainted_eq_false (fun u below => (quiet.subtree below).isBig_eq_false)
      (untainted _),
    fun b => (remembers.bindings b).trans (unbound b)⟩

/-- To lower a clean unit does nothing but import the library. -/
theorem WellFormed.relower {config : Config} {s : Store} {T : Tree Nat Name} (h : WellFormed s T)
    {names : Names} (room : ¬ Overflows (lower config s (some T.tag) names)) {L : LibraryNames}
    (named : config.Named names L) (clean : T.IsClean L.constructor)
    (result : Except Rejection Outcome) :
    ∃ after : Lowered Names, lower config s (some T.tag) names = .ok after ∧
      Relowered L T.tag ⟨s, names, result⟩ after ∧
      after.store.Holds (T.withImport L.library L.source s.size) := by
  obtain ⟨run⟩ := h.run config names
  have library : run.setup.library = L := by rw [run.library, named.intern_eq]
  obtain ⟨facts, ran, untainted, unbound⟩ := run.idle h room (by rw [library]; exact clean)
  obtain ⟨facts', ran', -⟩ := run.lower_eq room
  have store : run.final.store = run.setup.store :=
    (Lowered.mk.inj (Except.ok.inj (ran'.symm.trans ran))).1
  obtain ⟨program, imported⟩ := run.program h
  rw [library, store] at imported
  rw [store] at program
  have holds := run.setup.holds
  rw [run.tree, library] at holds
  exact ⟨_, ran, ⟨⟨_, rfl, rfl, rfl, untainted, unbound⟩, congrArg Prod.snd named.intern_eq, run.size,
    imported, run.grown, program⟩, holds⟩

/-! ## Lowering several times -/

/-- Lower a unit a number of times in a row, each time with new facts. -/
def lowerTimes {τ : Type} [Naming τ] (config : Config) (root : Slot) :
    Nat → Store → τ → Except Fault (List (Lowered τ))
  | 0, _, _ => return []
  | k + 1, store, names => do
    let first ← lower config store root names
    return first :: (← lowerTimes config root k first.store first.names)

theorem lowerTimes_succ {τ : Type} [Naming τ] {config : Config} {root : Slot} {k : Nat}
    {store : Store} {names : τ} {first : Lowered τ} {rest : List (Lowered τ)}
    (ran : lower config store root names = .ok first)
    (later : lowerTimes config root k first.store first.names = .ok rest) :
    lowerTimes config root (k + 1) store names = .ok (first :: rest) := by
  rw [lowerTimes, ran]
  exact bind_of_eq (k := fun rest => pure (first :: rest)) later

theorem lowerTimes_room {τ : Type} [Naming τ] {config : Config} {root : Slot} {k : Nat}
    {store : Store} {names : τ} (room : ¬ Overflows (lowerTimes config root (k + 1) store names)) :
    ¬ Overflows (lower config store root names) ∧
      ∀ first, lower config store root names = .ok first →
        ¬ Overflows (lowerTimes config root k first.store first.names) := by
  rw [lowerTimes] at room
  refine ⟨fun stuck => room (stuck.bind _), fun first ran stuck => room ?_⟩
  rw [ran]
  exact stuck.bind _

def Tree.withImports (L : LibraryNames) (root : Nat) (imports : List Nat)
    (body : List (Part Nat Name)) : Tree Nat Name :=
  .node root (.program
    (imports.map (fun x => some (.node x (.importDefault L.library L.source))) ++ body))

theorem Tree.nodup_imports {L : LibraryNames} {root : Nat} {imports : List Nat}
    {body : List (Part Nat Name)} (distinct : (withImports L root imports body).ids.Nodup) :
    imports.Nodup := by
  have leaf (x : Nat) : (node x (.importDefault L.library L.source) : Tree Nat Name).ids = [x] :=
    ids_leaf rfl
  have children : (withImports L root imports body).children =
      imports.map (fun x => .node x (.importDefault L.library L.source)) ++ body.filterMap id := by
    simp [children_of_program (T := withImports L root imports body) rfl, List.filterMap_map]
  have once := nodup_children distinct
  rw [children, List.flatMap_append, List.flatMap_map] at once
  simpa [leaf] using (List.nodup_append.mp once).1

/-- A held program with imports in front has them in its list of statements. -/
theorem Store.Holds.imports {s : Store} {L : LibraryNames} {root : Nat} {imports : List Nat}
    {body : List (Tree.Part Nat Name)} (holds : s.Holds (Tree.withImports L root imports body)) :
    (∃ range, s.kind (some root) = .ok (.program range) ∧
      s.list range = .ok (imports.map some ++ body.map (Option.map Tree.tag))) ∧
    ∀ x ∈ imports, s.kind (some x) = .ok (.importDefault L.library L.source) := by
  constructor
  · obtain ⟨range, kind, lists⟩ := holds.kind_list
    refine ⟨range, kind, ?_⟩
    rw [lists _ List.mem_cons_self, List.map_append, List.map_map]
    rfl
  · intro x mem
    have child : .node x (.importDefault L.library L.source) ∈
        (Tree.withImports L root imports body).children := by
      rw [Tree.mem_children_iff]
      refine List.mem_append_left _ (List.mem_append_left _ ?_)
      exact List.mem_map.mpr ⟨x, mem, rfl⟩
    obtain ⟨_, own, -⟩ := (holds.child child).kind_list
    exact own

/-- The first lowering leaves a program with one import in front of the lowered statements. -/
theorem UnitRun.lowered_eq {τ : Type} [Naming τ] {config : Config} {s : Store} {T : Tree Nat Name}
    {names : τ} (run : UnitRun config s T names) {body : List (Tree.Part Nat Name)}
    (program : T.kind = .program body) :
    ∃ body', run.lowered = Tree.withImports run.setup.library T.tag [s.size] body' ∧
      body'.map (Option.map Tree.tag) = body.map (Option.map Tree.tag) := by
  let imported : Tree Nat Name :=
    .node s.size (.importDefault run.setup.library.library run.setup.library.source)
  have start : run.setup.tree.kind = .program (some imported :: body) := by
    rw [run.tree, Tree.withImport_eq program]
    rfl
  obtain ⟨f, lowered, below⟩ := run.done.lowers.eq_of_program start
  have leaf : f imported = imported := (below imported List.mem_cons_self).eq_of_leaf rfl nofun
  refine ⟨body.map (Option.map f), ?_, ?_⟩
  · rw [lowered, run.tag, List.map_cons, Option.map_some, leaf]
    rfl
  · rw [List.map_map]
    refine List.map_congr_left fun part mem => ?_
    cases part with
    | none => rfl
    | some c => exact congrArg some (below c (List.mem_cons_of_mem _ mem)).tag_eq

/-- A clean unit can be lowered as often as there is room for one more import. -/
theorem relowered_times {config : Config} {names : Names} {L : LibraryNames}
    (named : config.Named names L) {root : Nat} {body : List (Tree.Part Nat Name)} {k : Nat}
    {imports : List Nat} {s : Store} (result : Except Rejection Outcome)
    (short : imports.length + body.length + k ≤ Store.maxListLength)
    (room : ¬ Overflows (lowerTimes config (some root) k s names))
    (clean : (Tree.withImports L root imports body).IsClean L.constructor)
    (holds : s.Holds (Tree.withImports L root imports body))
    (distinct : (Tree.withImports L root imports body).ids.Nodup)
    (wellFormed : imports.length + body.length < Store.maxListLength →
      WellFormed s (Tree.withImports L root imports body)) :
    ∃ (results : List (Lowered Names)) (last : Lowered Names) (more : List Nat),
      lowerTimes config (some root) k s names = .ok results ∧ results.length = k ∧
      (∀ r ∈ results, ∃ outcome, r.result = .ok outcome) ∧
      (⟨s, names, result⟩ :: results).IsChain (Relowered L root) ∧
      (⟨s, names, result⟩ :: results).getLast? = some last ∧ last.names = names ∧
      more.length = k ∧ last.store.Holds (Tree.withImports L root (more ++ imports) body) ∧
      (Tree.withImports L root (more ++ imports) body).ids.Nodup := by
  induction k generalizing imports s result with
  | zero =>
    exact ⟨[], _, [], rfl, rfl, by simp, .singleton _, rfl, rfl, rfl, holds, distinct⟩
  | succ k ih =>
    have unit := wellFormed (by omega)
    obtain ⟨first, others⟩ := lowerTimes_room room
    obtain ⟨after, ran, relowered, held⟩ := unit.relower first named clean result
    -- One more import stands in front now.
    have clean' : (Tree.withImports L root (s.size :: imports) body).IsClean L.constructor :=
      clean.withImport rfl L.library L.source s.size
    have again (short : (s.size :: imports).length + body.length < Store.maxListLength) :
        WellFormed after.store (Tree.withImports L root (s.size :: imports) body) := by
      refine unit.again L rfl held ?_
      rw [List.length_append, List.length_map]
      rw [List.length_cons] at short
      omega
    have same : after.names = names := relowered.names
    have left : ¬ Overflows (lowerTimes config (some root) k after.store names) :=
      same ▸ others after ran
    obtain ⟨results, last, more, later, length, all, chain, final, names', count, held', once⟩ :=
      ih after.result (by rw [List.length_cons]; omega) left clean' held (unit.withImport L).1 again
    have whole : after = ⟨after.store, names, after.result⟩ := by rw [← same]
    have ok : ∃ outcome, after.result = .ok outcome := by
      obtain ⟨outcome, ok, -⟩ := relowered.idle
      exact ⟨outcome, ok⟩
    refine ⟨after :: results, last, more ++ [s.size], lowerTimes_succ ran ?_, by simp [length],
      ?_, ?_, ?_, names', by simp [count], ?_⟩
    · rw [same]
      exact later
    · intro r mem
      rcases List.mem_cons.mp mem with rfl | mem
      · exact ok
      · exact all r mem
    · refine .cons_cons relowered ?_
      rw [whole]
      exact chain
    · rw [List.getLast?_cons_cons, whole]
      exact final
    · rw [List.append_assoc]
      exact ⟨held', once⟩

namespace Tree.Lowers

variable {L : LibraryNames} {w : Spelling} {start : Nat} {R : Nat → Bool} {B : Nat → Option Nat}
  {T T' c : Tree Nat Name}

theorem length_of_literal (h : Lowers L w start R B T T') {digits : Name}
    (kind : T.kind = .bigInt digits) : T'.ids.length = 4 := by
  cases h with
  | literal => rw [ids_of_call rfl, ids_libraryMember]; rfl
  | constructor | compound | redirect => simp_all
  | operation f op => simp [kind, Kind.operation?] at op
  | keep f literal => exact (literal digits kind).elim

/-- What is below a node that no rule is for stays below it. -/
theorem exists_child (h : Lowers L w start R B T T') (inert : T.kind.isInert = true)
    (child : c ∈ T.children) : ∃ c', Lowers L w start R B c c' ∧ c'.ids.length < T'.ids.length := by
  cases h with
  | literal kind | constructor f kind | compound f kind | redirect f kind =>
    simp [kind, Kind.isInert] at inert
  | operation f op =>
    cases kind : T.kind <;> simp_all [Kind.isInert, Kind.operation?]
  | keep f _ _ _ below =>
    refine ⟨f c, below c child, ?_⟩
    have mem : f c ∈ (T.mapChildren f).children := by
      rw [children_mapChildren]
      exact List.mem_map_of_mem child
    simpa [ids] using length_subtrees_lt mem

/-- The target of an assignment that is lowered is there twice. -/
theorem exists_target (h : Lowers L w start R B T T') {op : AssignOp} {target value : Tree Nat Name}
    (kind : T.kind = .assign op (some target) (some value)) (marked : R T.tag = true) :
    ∃ target' value', Lowers L w start R B target target' ∧ Lowers L w start R B value value' ∧
      T'.ids.length = 2 * target'.ids.length + value'.ids.length + 4 := by
  cases h with
  | literal | constructor | redirect => simp_all
  | operation f op => simp [kind, Kind.operation?] at op
  | keep f _ _ calls =>
    obtain ⟨callee, args, call⟩ := calls marked
    cases kind.symm.trans call
  | @compound _ _ _ _ copy _ property o m call f own _ _ _ _ parts same =>
    cases kind.symm.trans own
    refine ⟨f target, f value, parts target (by simp), parts value (by simp), ?_⟩
    have copied : (copy.toList.flatMap ids).length = (f target).ids.length := by
      simpa using length_of_relabel same
    have whole := (ids_loweredAssign T.tag L.library property o m call (some (f target)) copy
      (some (f value))).length_eq
    simp only [List.length_cons, List.length_append, List.flatMap_append, List.length_nil, copied,
      Option.toList_some, List.flatMap_singleton] at whole
    refine Eq.trans whole ?_
    omega

end Tree.Lowers

namespace Sample

/-- The tree of `target += 1n`, with indices that leave three for each assignment inside. -/
def towerAssign (k : Nat) (target : Tree Nat Name) : Tree Nat Name :=
  .node (3 * k + 2) (.assign .add (some target) (some (.node (3 * k + 1) (.bigInt 2))))

/-- The trees of `x`, of `(x += 1n).p`, of `((x += 1n).p += 1n).p` and so on. -/
def towerTarget : Nat → Tree Nat Name
  | 0 => .node 0 (.ident 1)
  | k + 1 => .node (3 * k + 3) (.member (some (towerAssign k (towerTarget k))) 3)

/-- The program with twenty-nine assignments inside each other. -/
def towerTree : Tree Nat Name :=
  .node 88 (.program [some (.node 87 (.exprStmt (some (towerAssign 28 (towerTarget 28)))))])

@[inherit_doc towerTree]
def towerStore : Store where
  nodes := ((List.range 29).flatMap fun k => [
      ⟨if k = 0 then .ident 1 else .member (some (3 * k - 1)) 3, ⟨0, 0⟩⟩, ⟨.bigInt 2, ⟨0, 0⟩⟩,
      ⟨.assign .add (some (3 * k)) (some (3 * k + 1)), ⟨0, 0⟩⟩]).toArray ++
    #[⟨.exprStmt (some 86), ⟨0, 0⟩⟩, ⟨.program ⟨0, 1⟩, ⟨0, 0⟩⟩]
  lists := #[some 87]

@[inherit_doc towerTree]
def towerNames : Names := ["x", "1", "p"].foldl (fun t text => (t.intern text).2) .fresh

theorem tower_wellFormed : WellFormed towerStore towerTree := by decide +kernel

theorem tower_mem {j k : Nat} (bound : j ≤ k) :
    towerAssign j (towerTarget j) ∈ (towerAssign k (towerTarget k)).subtrees := by
  induction bound with
  | refl => exact Tree.self_mem_subtrees _
  | @step k _ ih =>
    have target : towerTarget (k + 1) ∈ (towerAssign (k + 1) (towerTarget (k + 1))).subtrees :=
      Tree.child_mem_subtrees List.mem_cons_self
    have inner : towerAssign k (towerTarget k) ∈ (towerTarget (k + 1)).subtrees :=
      Tree.child_mem_subtrees List.mem_cons_self
    exact Tree.subtrees_trans target (Tree.subtrees_trans inner ih)

/-- Each assignment that is lowered doubles what is inside it. -/
theorem length_tower {L : LibraryNames} {w : Spelling} {start : Nat} {R : Nat → Bool}
    {B : Nat → Option Nat} {k : Nat} (marked : ∀ j ≤ k, R (3 * j + 2) = true) {T' : Tree Nat Name}
    (h : Tree.Lowers L w start R B (towerAssign k (towerTarget k)) T') :
    10 * 2 ^ (k + 1) ≤ T'.ids.length + 10 := by
  induction k generalizing T' with
  | zero =>
    obtain ⟨target, value, -, literal, whole⟩ := h.exists_target rfl (marked 0 (Nat.le_refl 0))
    have top : 0 < target.ids.length := List.length_pos_of_mem target.tag_mem_ids
    have four := literal.length_of_literal rfl
    omega
  | succ k ih =>
    obtain ⟨target, value, below, literal, whole⟩ :=
      h.exists_target rfl (marked (k + 1) (Nat.le_refl _))
    obtain ⟨inner, lowered, smaller⟩ := below.exists_child rfl List.mem_cons_self
    have half := ih (fun j bound => marked j (Nat.le_succ_of_le bound)) lowered
    have four := literal.length_of_literal rfl
    rw [Nat.pow_succ]
    omega

end Sample

end BigLower
