import BigLower.Proofs.Counting
import BigLower.Proofs.Fates
import BigLower.Proofs.Tour

/-! # States that follow a plan

The state of a pass follows the plan: the nodes that are replaced and the taints
are those of the plan, the tally counts the uses of the rules, and the store says
of every node what became of it.
-/

namespace BigLower

namespace Setup

variable {τ : Type} [Naming τ] {C : Setup} {s s' : Store} {u : Tree Nat Name}

def policy (C : Setup) : Policy where
  constructor := C.library.constructor
  memberCalls := C.memberCalls
  scopes := C.scopes

/-- A state of the pass that has followed a plan so far; `names` is the table at the start. -/
structure Progress (C : Setup) (names : τ) (q : Pass τ) (P : Plan) : Prop where
  grown : C.store.Evolves (· ∈ C.tree.ids) q.store
  interned : Naming.Grows names q.names
  fates : ∀ u ∈ C.tree.subtrees, Fate C.library C.store (Naming.spelling names q.names) q.store C.tree
    (fun x => q.facts.isReplaced (some x)) u
  references : ∀ x ∈ C.tree.ids, q.scopes.bindingOf (some x) = C.scopes.bindingOf (some x)
  unreferenced : ∀ x, q.store.size ≤ x → q.scopes.bindingOf (some x) = none
  declarations : ∀ slot, q.scopes.declaredBy slot = C.scopes.declaredBy slot
  replaced : ∀ x ∈ C.tree.ids, q.facts.isReplaced (some x) = decide (x ∈ P.replaced)
  tainted : ∀ x ∈ C.tree.ids, q.facts.isTainted (some x) = (C.policy.evidence P).tainted x
  bindings : ∀ b, q.facts.isBindingTainted b = decide (b ∈ P.bindings)
  blank : ∀ x, q.store.size ≤ x →
    q.facts.isReplaced (some x) = false ∧ q.facts.isSettled (some x) = false
  counts : ∀ rule, q.tally.uses rule =
    C.tree.uses C.library.constructor (fun x => q.facts.isReplaced (some x)) rule

namespace Progress

variable {names : τ} {q : Pass τ} {P : Plan}

theorem lt_start {x : Nat} (mem : x ∈ C.tree.ids) : x < C.store.size :=
  C.holds.lt_size mem

theorem lt_size (h : C.Progress names q P) {x : Nat} (mem : x ∈ C.tree.ids) : x < q.store.size :=
  Nat.lt_of_lt_of_le (lt_start mem) h.grown.size_le

theorem isConstructor_eq (h : C.Progress names q P) {callee : Tree.Part Nat Name}
    {args : List (Tree.Part Nat Name)} (below : u ∈ C.tree.subtrees)
    (kept : q.facts.isReplaced (some u.tag) = false) (call : u.kind = .call callee args)
    (name : Name) :
    q.store.isConstructor name (callee.map Tree.tag) = callee.any (Tree.isConstructor name) :=
  isConstructor_of_fates C.holds C.distinct h.fates below kept call name

theorem isIdent_eq (h : C.Progress names q P) {callee object : Tree Nat Name}
    {args : List (Tree.Part Nat Name)} {property : Name} (below : u ∈ C.tree.subtrees)
    (kept : q.facts.isReplaced (some u.tag) = false) (call : u.kind = .call (some callee) args)
    (member : callee.kind = .member (some object) property) (name : Name) :
    q.store.isIdent (some object.tag) name = object.isIdent name :=
  isIdent_of_fates C.holds C.distinct h.fates below kept call member name

theorem judgeable (h : C.Progress names q P) : C.Judgeable q.store q.scopes q.facts where
  present x mem := h.lt_size mem
  seen u below kept := ((h.fates u below).kept kept).seen (C.holds.subtree below)
  constructors u below kept callee args call := h.isConstructor_eq below kept call _
  references := h.references
  tainted x mem replaced := by
    rw [h.replaced x mem] at replaced
    rw [h.tainted x mem]
    simp [Policy.evidence, of_decide_eq_true replaced]

theorem isBig_eq (h : C.Progress names q P) (below : u ∈ C.tree.subtrees) :
    u.isBig (C.evidence q.facts) = u.isBig (C.policy.evidence P) := by
  refine @Tree.isBig_congr (C.evidence q.facts) (C.policy.evidence P) u rfl (fun x inside => ?_)
    fun x _ => ?_
  · exact h.tainted x (Tree.mem_ids_of_subtree below inside)
  · have same : q.facts.isBindingTainted = fun b => decide (b ∈ P.bindings) := funext h.bindings
    simp only [evidence, Policy.evidence, policy, same]

/-- What is added to the store and told of the new nodes changes nothing for the tree. -/
theorem extend (h : C.Progress names q P) {q' : Pass τ}
    (grown : q.store.Evolves (fun _ => False) q'.store) (later : Naming.Grows q.names q'.names)
    (replaced : ∀ x, x < q.store.size → q'.facts.isReplaced (some x) = q.facts.isReplaced (some x))
    (tainted : ∀ x, x < q.store.size → q'.facts.isTainted (some x) = q.facts.isTainted (some x))
    (bindings : ∀ b, q'.facts.isBindingTainted b = q.facts.isBindingTainted b)
    (references : ∀ x, x < q.store.size → q'.scopes.bindingOf (some x) = q.scopes.bindingOf (some x))
    (unreferenced : ∀ x, q'.store.size ≤ x → q'.scopes.bindingOf (some x) = none)
    (declarations : ∀ slot, q'.scopes.declaredBy slot = q.scopes.declaredBy slot)
    (blank : ∀ x, q'.store.size ≤ x →
      q'.facts.isReplaced (some x) = false ∧ q'.facts.isSettled (some x) = false)
    (sameTally : q'.tally = q.tally) : C.Progress names q' P where
  grown := h.grown.trans (grown.mono fun _ _ => False.elim)
  interned := h.interned.trans later
  fates u below := by
    refine (h.fates u below).evolve (C.holds.subtree below) grown (fun _ _ => id)
      ⟨id, fun _ _ _ _ _ _ _ => ⟨id, id⟩⟩
      (replaced u.tag (h.lt_size (List.mem_map_of_mem below))) (fun x marked => ?_) later.spelling
    have inside : x < q.store.size := by
      by_contra outside
      rw [(h.blank x (Nat.le_of_not_lt outside)).1] at marked
      cases marked
    rw [replaced x inside, marked]
  references x mem := (references x (h.lt_size mem)).trans (h.references x mem)
  unreferenced := unreferenced
  declarations slot := (declarations slot).trans (h.declarations slot)
  replaced x mem := (replaced x (h.lt_size mem)).trans (h.replaced x mem)
  tainted x mem := (tainted x (h.lt_size mem)).trans (h.tainted x mem)
  bindings b := (bindings b).trans (h.bindings b)
  blank := blank
  counts rule := by
    rw [sameTally, h.counts rule]
    exact (Tree.uses_congr (fun x mem => replaced x (h.lt_size mem)) rule).symm

theorem settle (h : C.Progress names q P) {x : Nat} (inside : x < q.store.size) :
    C.Progress names { q with facts := q.facts.markSettled (some x) } P := by
  refine h.extend (.refl _) .refl (fun y _ => ?_) (fun y _ => ?_) (fun b => ?_) (fun _ _ => rfl)
    h.unreferenced (fun _ => rfl) (fun y outside => ?_) rfl
  · simp [Facts.markSettled]
  · simp [Facts.markSettled]
  · simp [Facts.markSettled, Facts.isBindingTainted]
  · have other : y ≠ x := by
      rintro rfl
      exact Nat.lt_irrefl _ (Nat.lt_of_lt_of_le inside outside)
    obtain ⟨replaced, settled⟩ := h.blank y outside
    simp [Facts.markSettled, replaced, settled, other]

section Mark

variable (h : C.Progress names q P) {s' : Store} {names' : τ} {enclosing : Slot}
  {T : Tree Nat Name} (below : T ∈ C.tree.subtrees)

def mark (q : Pass τ) (s' : Store) (names' : τ) (enclosing : Slot) (x : Nat) (tally : Tally) :
    Pass τ :=
  { q with
    store := s'
    names := names'
    facts := q.facts.marked q.scopes enclosing x
    tally := tally }

include h below

/-- A rule is applied as planned, if the fates after it are right. -/
theorem marked (kept : q.facts.isReplaced (some T.tag) = false) {rule : Rule}
    (own : T.rule? C.library.constructor = some rule)
    (grown : q.store.Evolves (· ∈ C.tree.ids) s') (later : Naming.Grows q.names names')
    (fates : ∀ u ∈ C.tree.subtrees, Fate C.library C.store (Naming.spelling names names') s' C.tree
      (fun y => (q.facts.marked q.scopes enclosing T.tag).isReplaced (some y)) u) :
    C.Progress names (mark q s' names' enclosing T.tag (q.tally.count rule))
      (C.policy.mark P enclosing T.tag) where
  grown := h.grown.trans grown
  interned := h.interned.trans later
  fates := fates
  references := h.references
  unreferenced y outside := h.unreferenced y (Nat.le_trans grown.size_le outside)
  declarations := h.declarations
  replaced y inside := by
    rw [Bool.eq_iff_iff]
    simp [mark, Policy.mark, h.replaced y inside]
  tainted y inside := by
    have before := h.tainted y inside
    rw [Bool.eq_iff_iff] at before ⊢
    simp only [Policy.evidence, Bool.or_eq_true, decide_eq_true_eq] at before
    simp [mark, Facts.isTainted_marked, before, Policy.mark, Policy.evidence, @eq_comm _ enclosing]
    tauto
  bindings b := by
    rw [Bool.eq_iff_iff]
    simp [mark, h.bindings, h.declarations, Policy.mark, policy]
  blank y outside := by
    have inside := h.lt_size (List.mem_map_of_mem below)
    have larger := Nat.le_trans grown.size_le outside
    have other : y ≠ T.tag := by omega
    obtain ⟨replaced, settled⟩ := h.blank y larger
    simp [mark, replaced, settled, other]
  counts rule' := by
    have marks : (fun y => (q.facts.marked q.scopes enclosing T.tag).isReplaced (some y)) =
        fun y => y == T.tag || q.facts.isReplaced (some y) := by
      funext y
      simp
    show (q.tally.count rule).uses rule' = _
    rw [Tally.uses_count, h.counts rule', ← Tree.uses_mark C.distinct below kept own rule', ← marks]
    rfl

/-- The fate of a node that a step spares, when another node is marked. -/
theorem fate_of_spared {changed : Nat → Prop} (grown : q.store.Evolves changed s')
    (inside : ∀ y, changed y → y ∈ C.tree.ids) (later : Naming.Grows q.names names')
    (hu : u ∈ C.tree.subtrees) (other : u ≠ T) (spared : Spares C.library changed u) :
    Fate C.library C.store (Naming.spelling names names') s' C.tree
      (fun y => (q.facts.marked q.scopes enclosing T.tag).isReplaced (some y)) u := by
  have apart : u.tag ≠ T.tag := fun same => other (Tree.eq_of_tag_eq C.distinct hu below same)
  refine (h.fates u hu).evolve (C.holds.subtree hu) grown (fun y fresh moved => ?_) spared
    (by simp [apart]) (fun y marked => by simp [marked]) later.spelling
  have bound := lt_start (inside y moved)
  omega

/-- A node is lowered as planned, if the store says what it became. -/
theorem lower (kept : q.facts.isReplaced (some T.tag) = false) {rule : Rule}
    (own : T.rule? C.library.constructor = some rule) (grown : q.store.Evolves (· = T.tag) s')
    (later : Naming.Grows q.names names')
    (became : Became C.library C.store (Naming.spelling names names') s' T) :
    C.Progress names (mark q s' names' enclosing T.tag (q.tally.count rule))
      (C.policy.mark P enclosing T.tag) := by
  have mem : T.tag ∈ C.tree.ids := List.mem_map_of_mem below
  refine h.marked below kept own (grown.mono fun y _ same => same ▸ mem) later fun u hu => ?_
  by_cases same : u = T
  · subst same
    exact ⟨fun _ => became, fun unmarked => by simp at unmarked⟩
  · refine h.fate_of_spared below grown (fun y same => same ▸ mem) later hu same ⟨?_, ?_⟩
    · exact fun tag => same (Tree.eq_of_tag_eq C.distinct hu below tag)
    · intro callee args object property call member math
      have inside := Tree.subtrees_trans hu (Tree.child_mem_subtrees (Tree.child_of_callee call))
      have deep := Tree.subtrees_trans inside
        (Tree.child_mem_subtrees (Tree.child_of_object member))
      constructor
      · intro tag
        rw [← Tree.eq_of_tag_eq C.distinct inside below tag] at became
        simpa [member, Kind.isInert] using became.isInert_eq
      · intro tag
        rw [← Tree.eq_of_tag_eq C.distinct deep below tag] at became
        simpa [math, Kind.isInert] using became.isInert_eq

theorem node?_eq_of_call {callee : Tree.Part Nat Name} {args : List (Tree.Part Nat Name)}
    (kept : q.facts.isReplaced (some T.tag) = false) (call : T.kind = .call callee args) :
    q.store.node? (some T.tag) = C.store.node? (some T.tag) := by
  cases (h.fates T below).kept kept with
  | same own => exact own
  | callee _ _ _ _ kind => simp [call] at kind
  | object _ _ _ _ _ kind => simp [call] at kind

theorem method {callee : Tree Nat Name} {args : List (Tree.Part Nat Name)}
    (kept : q.facts.isReplaced (some T.tag) = false) (call : T.kind = .call (some callee) args)
    (member : callee.isMember = true) (plain : callee.isConstructor C.library.constructor = false)
    (other : ∀ object property, callee.kind = .member (some object) property →
      object.kind ≠ .ident C.library.math) :
    C.Progress names (mark q q.store q.names enclosing T.tag (q.tally.count .methodCall))
      (C.policy.mark P enclosing T.tag) := by
  refine h.lower below kept (Tree.rule?_of_call call plain) (.refl _) .refl
    (.method call member plain (h.node?_eq_of_call below kept call) ?_)
  intro object property inside math
  exact (other object property inside math).elim

theorem redirect {callee object : Tree Nat Name} {args : List (Tree.Part Nat Name)}
    {property property' : Name} (kept : q.facts.isReplaced (some T.tag) = false)
    (call : T.kind = .call (some callee) args)
    (plain : callee.isConstructor C.library.constructor = false)
    (member : callee.kind = .member (some object) property)
    (math : object.kind = .ident C.library.math)
    (grown : q.store.Evolves (fun y => y = callee.tag ∨ y = object.tag) s')
    (later : Naming.Grows q.names names') (renames : Naming.Renames names names' property property')
    (calleeKind : s'.kind (some callee.tag) = .ok (.member (some object.tag) property'))
    (objectKind : s'.kind (some object.tag) = .ok (.ident C.library.library)) :
    C.Progress names (mark q s' names' enclosing T.tag (q.tally.count .methodCall))
      (C.policy.mark P enclosing T.tag) := by
  have child : callee ∈ T.children := Tree.child_of_callee call
  have inside := Tree.subtrees_trans below (Tree.child_mem_subtrees child)
  have grandchild : object ∈ callee.children := Tree.child_of_object member
  have deep := Tree.subtrees_trans inside (Tree.child_mem_subtrees grandchild)
  have mem : T.tag ∈ C.tree.ids := List.mem_map_of_mem below
  have moved : ∀ y, y = callee.tag ∨ y = object.tag → y ∈ C.tree.ids := by
    rintro y (rfl | rfl)
    · exact List.mem_map_of_mem inside
    · exact List.mem_map_of_mem deep
  -- The three nodes are of three kinds, so they are different nodes.
  have apart₁ : callee.tag ≠ T.tag := fun same => by
    rw [Tree.eq_of_tag_eq C.distinct inside below same, call] at member
    cases member
  have apart₂ : object.tag ≠ T.tag := fun same => by
    rw [Tree.eq_of_tag_eq C.distinct deep below same, call] at math
    cases math
  have unmarked {u : Tree Nat Name} (hu : u ∈ C.tree.subtrees) (apart : u.tag ≠ T.tag)
      (inert : u.kind.isInert = true) :
      (q.facts.marked q.scopes enclosing T.tag).isReplaced (some u.tag) = false := by
    by_contra marked
    have before : q.facts.isReplaced (some u.tag) = true := by simpa [apart] using marked
    simp [((h.fates u hu).became before).isInert_eq] at inert
  refine h.marked below kept (Tree.rule?_of_call call plain) (grown.mono fun y _ => moved y) later
    fun u hu => ?_
  by_cases whole : u = T
  · subst whole
    refine ⟨fun _ => .method call (by simp [Tree.isMember, member]) plain ?_ ?_,
      fun unmarked => by simp at unmarked⟩
    · have before := h.node?_eq_of_call below kept call
      obtain ⟨range, span, found⟩ := (C.holds.subtree below).node?
      rw [found] at before ⊢
      refine grown.kept before ?_
      rintro (same | same)
      · exact apart₁ same.symm
      · exact apart₂ same.symm
    · intro object' property₁ member' math'
      rw [member] at member'
      cases member'
      exact ⟨objectKind, property', renames, calleeKind⟩
  · by_cases first : u = callee
    · subst first
      exact .of_kept (unmarked hu apart₁ (by rw [member]; rfl))
        (.callee below call (by simp) plain member math renames calleeKind)
    · by_cases second : u = object
      · subst second
        exact .of_kept (unmarked hu apart₂ (by rw [math]; rfl))
          (.object below call (by simp) plain member math objectKind)
      · refine h.fate_of_spared below grown moved later hu whole ⟨?_, ?_⟩
        · rintro (same | same)
          · exact first (Tree.eq_of_tag_eq C.distinct hu inside same)
          · exact second (Tree.eq_of_tag_eq C.distinct hu deep same)
        · intro callee' args' object' property₁ call' member' math'
          have child' : callee' ∈ u.children := Tree.child_of_callee call'
          have inside' := Tree.subtrees_trans hu (Tree.child_mem_subtrees child')
          have grandchild' : object' ∈ callee'.children := Tree.child_of_object member'
          have deep' := Tree.subtrees_trans inside' (Tree.child_mem_subtrees grandchild')
          constructor
          · rintro (same | same)
            · exact whole (Tree.parent_unique C.distinct hu below child' child same)
            · rw [Tree.eq_of_tag_eq C.distinct inside' deep same, math] at member'
              cases member'
          · rintro (same | same)
            · rw [Tree.eq_of_tag_eq C.distinct deep' inside same, member] at math'
              cases math'
            · have above : callee' = callee :=
                Tree.parent_unique C.distinct inside' inside grandchild' grandchild same
              exact whole (Tree.parent_unique C.distinct hu below child' child (by rw [above]))

end Mark

end Progress

end Setup

end BigLower
