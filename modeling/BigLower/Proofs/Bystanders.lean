import BigLower.Proofs.Printing
import BigLower.Proofs.Relowering

/-! # What has nothing to do with big integers

A subtree in which no big integer can come up is left as it is by lowering, whatever
is lowered around it, unless it is what a call goes to. If no big integer can come up
in the whole unit, then lowering does no more than put the import in front, and so
does the text of the unit.
-/

namespace BigLower

/--
A proper subtree in which no big integer can come up: it has no literal, no call of
the constructor and no tainted variable, and no call goes to it or to a member of it.
-/
structure Tree.IsBystander (constructor : Name) (tainted : Nat → Bool) (T S : Tree Nat Name) :
    Prop where
  below : S ∈ T.subtrees
  proper : S ≠ T
  clean : S.IsClean constructor
  untainted : ∀ u ∈ S.subtrees, ∀ name, u.kind = .ident name → tainted u.tag = false
  uncalled : ∀ v ∈ T.subtrees, ∀ callee args, v.kind = .call (some callee) args →
    callee ≠ S ∧ ∀ property, callee.kind ≠ .member (some S) property

/-- What is not called was neither redirected nor replaced, if the calls in it were not. -/
theorem Kept.node?_eq {L : LibraryNames} {w : Spelling} {s s' : Store} {T S u : Tree Nat Name}
    {R : Nat → Bool} (kept : Kept L s w s' T R u) (distinct : T.ids.Nodup) (below : S ∈ T.subtrees)
    (inside : u ∈ S.subtrees) (unmarked : ∀ x ∈ S.ids, R x = false)
    (uncalled : ∀ v ∈ T.subtrees, ∀ callee args, v.kind = .call (some callee) args →
      callee ≠ S ∧ ∀ property, callee.kind ≠ .member (some S) property) :
    s'.node? (some u.tag) = s.node? (some u.tag) := by
  -- The parent of a node of the subtree is in the subtree too, unless the node is its top.
  have parent {v c : Tree Nat Name} (outer : v ∈ T.subtrees) (child : c ∈ v.children)
      (deep : c ∈ S.subtrees) (other : c ≠ S) : v ∈ S.subtrees := by
    obtain ⟨v', inner, child'⟩ := Tree.exists_parent deep other
    have same := Tree.parent_unique distinct outer (Tree.subtrees_trans below inner) child child' rfl
    rw [same]
    exact inner
  have unmarked' {v : Tree Nat Name} (inner : v ∈ S.subtrees) : R v.tag ≠ true := by
    rw [unmarked v.tag (List.mem_map_of_mem inner)]
    exact Bool.false_ne_true
  cases kept with
  | same own => exact own
  | callee outer call marked =>
    have other := (uncalled _ outer _ _ call).1
    exact (unmarked' (parent outer (Tree.child_of_callee call) inside other) marked).elim
  | @object v callee args property outer call marked plain member =>
    obtain ⟨other, other'⟩ := uncalled v outer callee args call
    have apart : u ≠ S := by
      rintro rfl
      exact other' property member
    have around := Tree.subtrees_trans outer (Tree.child_mem_subtrees (Tree.child_of_callee call))
    have deep := parent around (Tree.child_of_object member) inside apart
    exact (unmarked' (parent outer (Tree.child_of_callee call) deep other) marked).elim

namespace UnitRun

variable {τ : Type} [Naming τ] {config : Config} {s : Store} {T S : Tree Nat Name} {names : τ}

/-- A bystander keeps its nodes, and the plan of the pass avoids it. -/
theorem bystander (run : UnitRun config s T names) (h : WellFormed s T)
    (bystander : T.IsBystander run.setup.library.constructor (fun x =>
      (run.final.scopes.bindingOf (some x)).any run.final.facts.isBindingTainted) S) :
    (∀ x ∈ S.ids, run.final.store.node? (some x) = s.node? (some x) ∧
      run.final.facts.isReplaced (some x) = false) ∧
    S.IsQuiet (run.setup.evidence run.final.facts) := by
  have below := run.mem_subtrees_of_ne h bystander.below bystander.proper
  have mem {x : Nat} (inside : x ∈ S.ids) : x ∈ run.setup.tree.ids :=
    Tree.mem_ids_of_subtree below inside
  have bound {x : Nat} (inside : x ∈ S.ids) :
      (run.final.scopes.bindingOf (some x)).any run.final.facts.isBindingTainted =
        (run.setup.policy.evidence (run.setup.policy.plan (run.setup.tree.tour none) {})).bound x := by
    rw [run.progress.references x (mem inside), funext run.progress.bindings]
    rfl
  have avoids := run.setup.policy.avoids_plan run.setup.distinct below bystander.clean
    (P := {}) (fun v visited => visited) ⟨by simp, by simp, by simp⟩ fun u inside name ident => by
      rw [← bound (List.mem_map_of_mem inside)]
      exact bystander.untainted u inside name ident
  have unmarked : ∀ x ∈ S.ids, run.final.facts.isReplaced (some x) = false := by
    intro x inside
    rw [run.progress.replaced x (mem inside), decide_eq_false (avoids.replaced x inside)]
  refine ⟨fun x inside => ⟨?_, unmarked x inside⟩, bystander.clean, fun x inside => ?_, ?_⟩
  · obtain ⟨u, deep, rfl⟩ := List.mem_map.mp inside
    have other : u ≠ T := by
      rintro rfl
      exact bystander.proper (Tree.subtrees_antisymm bystander.below deep)
    have fate := run.fate h (Tree.subtrees_trans bystander.below deep) other (.refl _)
    exact (fate.kept (unmarked u.tag inside)).node?_eq h.distinct bystander.below deep unmarked
      bystander.uncalled
  · show run.final.facts.isTainted (some x) = false
    rw [run.progress.tainted x (mem inside)]
    simp [Policy.evidence, avoids.replaced x inside, avoids.declarators x inside]
  · intro u inside name ident
    have here := bystander.untainted u inside name ident
    rw [run.progress.references _ (mem (List.mem_map_of_mem inside))] at here
    exact here

end UnitRun

theorem Tree.unitText_withImport {T : Tree Nat Name} {body : List (Tree.Part Nat Name)}
    (program : T.kind = .program body) {text : Name → String} (closes : ClosesLine text body)
    (library source : Name) (x : Nat) :
    (T.withImport library source x).unitText text =
      "import " ++ text library ++ " from " ++ Quoted.literal (text source) ++ ";\n" ++
        T.unitText text := by
  let line := "import " ++ text library ++ " from " ++ Quoted.literal (text source) ++ ";"
  have rendered : renderPart text 0 looseLevel (some (node x (.importDefault library source))) = line :=
    rfl
  have ends : line.toList.getLast? = some ';' := by
    rw [String.toList_append, List.getLast?_append]
    rfl
  have closes' : ClosesLine text (some (node x (.importDefault library source)) :: body) :=
    closes.cons ends (by decide)
  rw [withImport_eq program, unitText_of_program rfl closes', unitText_of_program program closes,
    renderLines_cons, rendered]
  simp [line, String.append_assoc]

theorem Tree.IsWhole.withImport {T : Tree Nat Name} (whole : T.IsWhole)
    {body : List (Tree.Part Nat Name)} (program : T.kind = .program body) (library source : Name)
    (x : Nat) : (T.withImport library source x).IsWhole := by
  intro u below gap
  rcases (mem_subtrees_withImport program ..).mp below with rfl | rfl | ⟨c, child, deep⟩
  · have own := whole T T.self_mem_subtrees
    rw [program] at own
    rw [withImport_eq program] at gap
    rcases List.mem_cons.mp gap with first | later
    · cases first
    · exact own later
  · cases gap
  · exact whole u (mem_subtrees_of_child child deep) gap

theorem Tree.NamedIn.text_eq {T : Tree Nat Name} {a b : Names} (known : T.NamedIn a)
    (grown : Naming.Grows a b) : ∀ u ∈ T.subtrees, ∀ name ∈ u.kind.names, b.text name = a.text name :=
  fun u below name mem => (grown.text (known u below name mem)).2

theorem WellFormed.print_withImport {config : Config} {s s' : Store} {T : Tree Nat Name}
    (h : WellFormed s T) {names names' : Names} {L : LibraryNames} (named : config.Named names' L)
    (grown : Naming.Grows names names') {body : List (Tree.Part Nat Name)}
    (program : T.kind = .program body) (known : T.NamedIn names)
    (closes : Tree.ClosesLine names.text body) {before : String}
    (printed : s.print names.text (some T.tag) = .ok before)
    (holds : s'.Holds (T.withImport L.library L.source s.size)) :
    s'.print names'.text (some T.tag) =
      .ok ("import " ++ config.library ++ " from " ++ Quoted.literal config.source ++ ";\n" ++
        before) := by
  obtain ⟨whole, rfl⟩ := (h.holds.print_eq_ok_iff h.distinct).mp printed
  have alike := known.text_eq grown
  have closes' : Tree.ClosesLine names'.text body := by
    refine closes.congr fun c mem u deep => alike u (Tree.mem_subtrees_of_child ?_ deep)
    rw [Tree.children_of_program program]
    simpa using mem
  have same : T.unitText names'.text = T.unitText names.text := by
    unfold Tree.unitText
    rw [Tree.render_congr alike]
  have text := Tree.unitText_withImport program closes' L.library L.source s.size
  rw [same, named.consistent.text_of_find? named.library,
    named.consistent.text_of_find? named.source] at text
  have read := (holds.print_eq_ok_iff (h.withImport L).1).mpr
    ⟨whole.withImport program L.library L.source s.size, text⟩
  rwa [Tree.tag_withImport program] at read

/--
When a well-formed unit has been lowered, every proper subtree in which no big integer
can come up has its old nodes, and none of them is tainted or replaced. If there is no
native big integer in the unit at all then no rule is applied, nothing is tainted, and
no node is new but the import; and if the unit had a text, and its last statement one
that does not end in a newline, then the new text is the import line and the old text.
-/
theorem lower_bystander {s : Store} {T : Tree Nat Name} (h : WellFormed s T) (config : Config)
    {names : Names} (consistent : names.Consistent)
    (room : ¬ Overflows (lower config s (some T.tag) names)) :
    ∃ (store : Store) (names' : Names) (outcome : Outcome) (L : LibraryNames),
      lower config s (some T.tag) names = .ok ⟨store, names', .ok outcome⟩ ∧
      config.Named names' L ∧ (∃ more, store.lists = s.lists ++ more) ∧
      (∀ S, T.IsBystander L.constructor (fun x =>
          (outcome.scopes.bindingOf (some x)).any outcome.facts.isBindingTainted) S →
        ∀ x ∈ S.ids, store.node? (some x) = s.node? (some x) ∧
          outcome.facts.isTainted (some x) = false ∧ outcome.facts.isReplaced (some x) = false) ∧
      (T.IsClean L.constructor → outcome.tally = {} ∧
        (∀ x, outcome.facts.isTainted (some x) = false) ∧
        (∀ b, outcome.facts.isBindingTainted b = false) ∧
        store.size = s.size + 1 ∧ s.Evolves (· = T.tag) store ∧
        store.kind (some s.size) = .ok (.importDefault L.library L.source) ∧
        ∀ body before, T.kind = .program body → T.NamedIn names →
          Tree.ClosesLine names.text body → s.print names.text (some T.tag) = .ok before →
          store.print names'.text (some T.tag) =
            .ok ("import " ++ config.library ++ " from " ++ Quoted.literal config.source ++ ";\n" ++
              before)) := by
  obtain ⟨run⟩ := h.run config names
  obtain ⟨facts, ran, remembers⟩ := run.lower_remembers room
  refine ⟨_, _, _, run.setup.library, ran, run.named consistent, (run.evolves h).lists,
    fun S bystander x inside => ?_, fun clean => ?_⟩
  · have plain : facts.isBindingTainted = run.final.facts.isBindingTainted :=
      funext remembers.bindings
    rw [plain] at bystander
    obtain ⟨own, quiet⟩ := run.bystander h bystander
    refine ⟨(own x inside).1, ?_, (remembers.replaced (some x)).trans (own x inside).2⟩
    obtain ⟨u, deep, rfl⟩ := List.mem_map.mp inside
    have below := run.mem_subtrees_of_ne h bystander.below bystander.proper
    by_contra tainted
    have big := remembers.big u (Tree.subtrees_trans below deep) (by simpa using tainted)
    rw [(quiet.subtree deep).isBig_eq_false] at big
    cases big
  · obtain ⟨facts', ran', untainted, unbound⟩ := run.idle h room clean
    have same := Except.ok.inj (ran.symm.trans ran')
    injection same with store names' result
    injection result with outcome
    injection outcome with _ facts' _ tally
    rw [store, names', facts', tally]
    have imported := (run.program h).2
    rw [store] at imported
    have holds := run.setup.holds
    rw [run.tree] at holds
    have named := run.named consistent
    rw [names'] at named
    exact ⟨rfl, untainted, unbound, run.size, run.grown, imported,
      fun body before program known closes printed =>
        h.print_withImport named (config.grows_intern names) program known closes printed holds⟩

namespace Tree

def isSum (T : Tree Nat Name) : Bool :=
  match T.kind with
  | .exprStmt _ | .binary .. | .number _ => true
  | _ => false

def isModest (T : Tree Nat Name) : Bool :=
  match T.kind with
  | .bigInt _ | .call .. => false
  | _ => true

def callsOther (x : Nat) (T : Tree Nat Name) : Bool :=
  match T.kind with
  | .call (some callee) _ => callee.tag != x && match callee.kind with
    | .member (some object) _ => object.tag != x
    | _ => true
  | _ => true

end Tree

namespace Sample

/-- The names and the store of `const n = 7; n + 1;`. -/
def plainNames : Names :=
  ["n", "7", "1"].foldl (fun t text => (t.intern text).2) .fresh

@[inherit_doc plainNames]
def plainStore : Store where
  nodes := #[
    ⟨.number 2, ⟨10, 11⟩⟩, ⟨.declarator 1 (some 0), ⟨6, 11⟩⟩, ⟨.varDecl .const ⟨0, 1⟩, ⟨0, 12⟩⟩,
    ⟨.ident 1, ⟨13, 14⟩⟩, ⟨.number 3, ⟨17, 18⟩⟩, ⟨.binary .add (some 3) (some 4), ⟨13, 18⟩⟩,
    ⟨.exprStmt (some 5), ⟨13, 19⟩⟩, ⟨.program ⟨1, 2⟩, ⟨0, 19⟩⟩]
  lists := #[some 1, some 2, some 6]

def plainTree : Tree Nat Name :=
  match plainStore.tree 7 with
  | .ok T => T
  | .error _ => .node 7 (.program [])

theorem plain_wellFormed : WellFormed plainStore plainTree := by decide +kernel

theorem plain_text : ∃ body, plainTree.kind = .program body ∧ plainTree.NamedIn plainNames ∧
    Tree.ClosesLine plainNames.text body ∧
    plainStore.print plainNames.text (some plainTree.tag) = .ok "const n = 7;\nn + 1;\n" := by
  have known : ∀ u ∈ plainTree.subtrees, ∀ name ∈ u.kind.names, name < plainNames.size := by
    decide +kernel
  have closes : (plainTree.kind.slots.getLast?.all fun part =>
      (Tree.renderPart plainNames.text 0 Tree.looseLevel part).toList.getLast? == some ';') = true := by
    decide +kernel
  obtain ⟨body, program, -⟩ := plain_wellFormed.program
  refine ⟨body, program, known, fun part last => ⟨';', ?_, by decide⟩, by decide +kernel⟩
  simpa [program, Kind.slots, Kind.parts, last] using closes

/-- The statement `1 + 2;` has nothing to do with the big integers around it. -/
theorem isBystander (constructor : Name) (tainted : Nat → Bool) :
    ∃ S, tree.IsBystander constructor tainted S ∧ S.ids = [24, 23, 21, 22] := by
  have found : ∃ S ∈ tree.subtrees, S.ids = [24, 23, 21, 22] := by decide +kernel
  obtain ⟨S, below, ids⟩ := found
  have tag : S.tag = 24 := by
    rw [Tree.ids_eq] at ids
    exact (List.cons.inj ids).1
  have kinds : ∀ S ∈ tree.subtrees, S.ids = [24, 23, 21, 22] → ∀ u ∈ S.subtrees,
      u.isSum = true := by
    decide +kernel
  have calls : ∀ v ∈ tree.subtrees, v.callsOther 24 = true := by decide +kernel
  refine ⟨S, ⟨below, ?_, fun u inside => ?_, fun u inside name ident => ?_, ?_⟩, ids⟩
  · rintro rfl
    revert tag
    decide +kernel
  · have kind := kinds S below ids u inside
    unfold Tree.isSum at kind
    unfold Tree.isNative
    cases own : u.kind <;> simp_all
  · have kind := kinds S below ids u inside
    simp [Tree.isSum, ident] at kind
  · intro v outer callee args call
    have here := calls v outer
    rw [Tree.callsOther, call] at here
    simp only [Bool.and_eq_true, bne_iff_ne] at here
    refine ⟨fun same => here.1 (same ▸ tag), fun property member => ?_⟩
    rw [member] at here
    simp [tag] at here

end Sample

/-- The sum at the end of the sample is left alone, and the plain unit gets an import line. -/
theorem lower_bystander_sample :
    WellFormed Sample.store Sample.tree ∧ Sample.names.Consistent ∧
    ¬ Overflows (lower {} Sample.store (some Sample.tree.tag) Sample.names) ∧
    (∃ (store : Store) (names' : Names) (outcome : Outcome),
      lower {} Sample.store (some Sample.tree.tag) Sample.names = .ok ⟨store, names', .ok outcome⟩ ∧
      ∀ x ∈ [24, 23, 21, 22], store.node? (some x) = Sample.store.node? (some x) ∧
        outcome.facts.isTainted (some x) = false ∧ outcome.facts.isReplaced (some x) = false) ∧
    WellFormed Sample.plainStore Sample.plainTree ∧ Sample.plainNames.Consistent ∧
    ¬ Overflows (lower {} Sample.plainStore (some Sample.plainTree.tag) Sample.plainNames) ∧
    ∃ (store : Store) (names' : Names) (outcome : Outcome),
      lower {} Sample.plainStore (some Sample.plainTree.tag) Sample.plainNames =
        .ok ⟨store, names', .ok outcome⟩ ∧ outcome.tally = {} ∧
      store.print names'.text (some Sample.plainTree.tag) =
        .ok "import JSBI from \"jsbi/dist/jsbi.mjs\";\nconst n = 7;\nn + 1;\n" := by
  have consistent : Sample.plainNames.Consistent := Names.consistent_fresh.interned _
  have room : ¬ Overflows (lower {} Sample.plainStore (some Sample.plainTree.tag)
      Sample.plainNames) := by
    decide +kernel
  refine ⟨Sample.wellFormed, Sample.consistent, Sample.room, ?_, Sample.plain_wellFormed, consistent,
    room, ?_⟩
  · obtain ⟨store, names', outcome, L, ran, -, -, kept, -⟩ :=
      lower_bystander Sample.wellFormed {} Sample.consistent Sample.room
    obtain ⟨S, bystander, ids⟩ := Sample.isBystander L.constructor (fun x =>
      (outcome.scopes.bindingOf (some x)).any outcome.facts.isBindingTainted)
    exact ⟨store, names', outcome, ran, ids ▸ kept S bystander⟩
  · obtain ⟨store, names', outcome, L, ran, -, -, -, whole⟩ :=
      lower_bystander Sample.plain_wellFormed {} consistent room
    have clean : Sample.plainTree.IsClean L.constructor := by
      have kinds : ∀ u ∈ Sample.plainTree.subtrees, u.isModest = true := by decide +kernel
      intro u below
      have kind := kinds u below
      unfold Tree.isModest at kind
      unfold Tree.isNative
      cases own : u.kind <;> simp_all
    obtain ⟨tally, -, -, -, -, -, printed⟩ := whole clean
    obtain ⟨body, program, known, closes, before⟩ := Sample.plain_text
    refine ⟨store, names', outcome, ran, tally, ?_⟩
    rw [printed body _ program known closes before]
    decide +kernel

end BigLower
