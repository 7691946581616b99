import BigLower.Proofs.Ranks

/-! # Passes over shared trees

In a store that holds a tree a node may be at several places of the tree. A pass
enters it at the first of them and finds it settled at the others. What a pass
relies on is less than that the store still holds the tree: the nodes have ranks,
and a node that no rule was applied to still has its children. Every step of a
pass keeps this, and so no step faults unless the store is full.
-/

namespace BigLower

variable {τ : Type}

section Run

variable {q : Pass τ} {s' : Store}

theorem PassM.node_eq {slot : Slot} {n : Node} (found : q.store.node? slot = some n) :
    PassM.node slot q = .ok (n, q) := by
  have read : q.store.node slot = .ok n := Store.node_eq_ok_iff.mpr found
  unfold PassM.node
  rw [bind_of_ok (show (get : PassM τ (Pass τ)) q = .ok (q, q) from rfl), read]
  rfl

theorem PassM.intern_eq [Naming τ] (text : String) :
    PassM.intern text q = .ok ((Naming.intern q.names text).1,
      { q with names := (Naming.intern q.names text).2 }) :=
  rfl

theorem PassM.alloc_attains (kind : NodeKind) (span : Span) :
    Attains (PassM.alloc kind span q) (q.store.size, { q with store := q.store.push kind span })
      q.store (q.store.push kind span) :=
  (q.store.alloc_attains kind span).map fun r => (r.1, ({ q with store := r.2 } : Pass τ))

theorem PassM.learn_eq (step : Facts → Facts) :
    PassM.learn step q = .ok ((), { q with facts := step q.facts }) :=
  rfl

theorem PassM.allocList_attains {slots : List Slot} (short : slots.length ≤ Store.maxListLength)
    {range : Range} (stored : q.store.append slots = (range, s')) :
    Attains (PassM.allocList slots q) (range, { q with store := s' }) q.store s' :=
  (Store.allocList_attains short stored).map fun r => (r.1, ({ q with store := r.2 } : Pass τ))

theorem PassM.replace_eq {slot : Slot} {kind : NodeKind}
    (replaced : q.store.replace slot kind = .ok s') :
    PassM.replace slot kind q = .ok ((), { q with store := s' }) := by
  unfold PassM.replace
  rw [replaced]
  rfl

theorem PassM.copy_attains {slot : Slot} {copied : Store.Copied}
    (run : Attains (q.store.deepCopy slot) (copied, s') q.store s') :
    Attains (PassM.copy slot q) (copied.root, { q with
      store := s'
      scopes := q.scopes.afterCopy copied.pairs
      facts := q.facts.afterCopy copied.pairs }) q.store s' :=
  run.map fun r => (r.1.root, ({ q with
    store := r.2
    scopes := q.scopes.afterCopy r.1.pairs
    facts := q.facts.afterCopy r.1.pairs } : Pass τ))

theorem Engine.libraryMember_attains (E : Engine) (property : Name) (span : Span) :
    Attains (E.libraryMember property span q) (q.store.size + 1,
      { q with store := q.store.withMember E.library.library property span })
      q.store (q.store.withMember E.library.library property span) := by
  let s₁ := q.store.push (.ident E.library.library) span
  have second := @PassM.alloc_attains τ { q with store := s₁ } (.member (some q.store.size) property) span
  rw [Store.size_push] at second
  exact (PassM.alloc_attains (.ident E.library.library) span).bind second

end Run

/-! ## What a judge leaves alone -/

namespace Judge

variable {s : Store} {t : Scopes} {constructor : Name}

/-- Looking for big integers says of no node that it was replaced. -/
theorem isReplaced_cached (slots : List Slot) (f : Facts) :
    (cached.anySlot s t constructor slots f).2.isReplaced = f.isReplaced := by
  have keeps := @cachedWithin_keeps (fun g => g.isReplaced = f.isReplaced) s t constructor
    (fun g x same => (funext (g.isReplaced_markTainted x)).trans same) (fun _ _ same => same)
  exact @anySlot_keeps _ s t constructor cached (keeps (s.size + 1)) slots f rfl

end Judge

theorem Tree.height_form {α ν : Type} (T : Tree α ν) : T.form.height = T.height := by
  induction T using Tree.induction with
  | step T ih =>
    rw [height_eq, height_eq T, children_form, List.map_map]
    exact congrArg (fun list => list.foldr max 0 + 1) (List.map_congr_left ih)

/-! ## What a pass relies on -/

namespace Store

variable {s s' : Store} {T u : Tree Nat Name} {x : Nat} {below : List Nat}

theorem Evolves.children {changed : Nat → Prop} (grown : s.Evolves changed s')
    (read : s.children (some x) = .ok below) (spared : ¬ changed x) :
    s'.children (some x) = .ok below := by
  obtain ⟨shape, own⟩ := shape_of_children read
  rw [children_of_shape own] at read
  cases read
  exact children_of_shape (grown.shape own spared)

theorem children_call {callee : Nat} {args : Range} {slots : List Slot}
    (own : s.kind (some x) = .ok (.call (some callee) args)) (list : s.list args = .ok slots) :
    s.children (some x) = .ok (callee :: slots.filterMap id) := by
  unfold Store.children
  rw [bind_of_eq own]
  simp [Kind.parts, slotsOf, list, bind, Except.bind, pure, Except.pure]

/-- The nodes of a tree are ranked by their heights, with room for new nodes below and between. -/
structure Ranks (s : Store) (T : Tree Nat Name) (rank : Nat → Nat) : Prop where
  ranked : s.Ranked rank
  heights : ∀ u ∈ T.subtrees, rank u.tag = 2 * u.height + 4

namespace Ranks

variable {rank rank' : Nat → Nat}

theorem lt_size (h : s.Ranks T rank) (below : u ∈ T.subtrees) : u.tag < s.size := by
  apply h.ranked.lt_size
  have := h.heights u below
  omega

theorem child (h : s.Ranks T rank) (below : u ∈ T.subtrees) {c : Tree Nat Name}
    (child : c ∈ u.children) : 2 < rank c.tag ∧ rank c.tag + 1 < rank u.tag := by
  have inside := Tree.subtrees_trans below (Tree.child_mem_subtrees child)
  have shorter := Tree.height_lt child
  rw [h.heights c inside, h.heights u below]
  omega

theorem extend (h : s.Ranks T rank) (ranked : s'.Ranked rank')
    (old : ∀ x, x < s.size → rank' x = rank x) : s'.Ranks T rank' where
  ranked := ranked
  heights u below := by
    rw [old u.tag (h.lt_size below)]
    exact h.heights u below

theorem withMember (h : s.Ranks T rank) (library property : Name) (span : Span) :
    ∃ rank', (s.withMember library property span).Ranks T rank' ∧
      (∀ x, x < s.size → rank' x = rank x) ∧ rank' (s.size + 1) = 2 := by
  have object : s.Reads (fun y => 0 < rank y ∧ rank y < 1) (.ident library) := reads_leaf rfl nofun
  have first := h.ranked.push object span
  have size : (s.push (.ident library) span).size = s.size + 1 := size_push s _ span
  have second := first.push (n := 2) (reads_member (o := s.size) (by simp) property) span
  rw [size] at second
  have old : ∀ x, x < s.size →
      (if x = s.size + 1 then 2 else if x = s.size then 1 else rank x) = rank x := by
    intro x bound
    rw [if_neg (by omega), if_neg (by omega)]
  exact ⟨_, h.extend second old, old, if_pos rfl⟩

end Ranks

/-- Every held tree can be ranked by its heights. -/
theorem Holds.ranks (holds : s.Holds T) (fit : T.ListsFit) (callees : T.CalleesPresent) :
    ∃ rank, s.Ranks T rank := by
  obtain ⟨rank, heights, others⟩ := holds.exists_weight (fun u => 2 * u.height + 4) fun _ => 0
  refine ⟨rank, fun x known => ?_, heights⟩
  by_cases mem : x ∈ T.ids
  · obtain ⟨u, below, rfl⟩ := List.mem_map.mp mem
    refine (holds.subtree below).reads (fun v inside => fit v (Tree.subtrees_trans below inside))
      (fun v inside => callees v (Tree.subtrees_trans below inside)) fun c child => ?_
    have inside := Tree.subtrees_trans below (Tree.child_mem_subtrees child)
    have shorter := Tree.height_lt child
    rw [heights u below, heights c inside]
    omega
  · rw [others x mem] at known
    omega

end Store

structure Sound (T : Tree Nat Name) (s : Store) (f : Facts) : Prop where
  ranks : ∃ rank, s.Ranks T rank
  children : ∀ u ∈ T.subtrees, f.isReplaced (some u.tag) = false →
    s.children (some u.tag) = .ok (u.children.map Tree.tag)

namespace Sound

variable {T : Tree Nat Name} {s s₁ s' : Store} {f f' : Facts}

theorem mono (h : Sound T s f)
    (more : ∀ slot, f'.isReplaced slot = false → f.isReplaced slot = false) : Sound T s f' where
  ranks := h.ranks
  children u below kept := h.children u below (more _ kept)

/-- A node may be replaced by what reads nodes of smaller ranks. -/
theorem replace (h : Sound T s f) (grown : s.Evolves (fun _ => False) s₁) {u : Tree Nat Name}
    {rank : Nat → Nat} (ranks : s₁.Ranks T rank) {k : NodeKind}
    (replaced : s₁.replace (some u.tag) k = .ok s')
    (reads : s₁.Reads (fun y => 0 < rank y ∧ rank y < rank u.tag) k)
    (marked : ∀ slot, f'.isReplaced slot = false → f.isReplaced slot = false ∧ slot ≠ some u.tag) :
    Sound T s' f' where
  ranks := ⟨rank, ranks.ranked.replace replaced reads, ranks.heights⟩
  children v inside kept := by
    obtain ⟨before, other⟩ := marked _ kept
    have read := grown.children (h.children v inside before) id
    exact (Store.evolves_replace replaced).children read fun same => other (congrArg some same)

theorem respell (h : Sound T s f) {x : Nat} {k k' : NodeKind} (own : s.kind (some x) = .ok k)
    (replaced : s.replace (some x) k' = .ok s') (parts : k'.parts = k.parts)
    (callee : ∀ args, k' ≠ .call none args) : Sound T s' f where
  ranks := by
    obtain ⟨rank, ranked, heights⟩ := h.ranks
    have same := Store.evolves_replace replaced
    refine ⟨rank, fun y known => ?_, heights⟩
    obtain ⟨k₁, own₁, reads⟩ := ranked y known
    by_cases here : y = x
    · subst here
      cases own.symm.trans own₁
      exact (ranked.replace replaced (reads.of_parts parts callee)) y known
    · exact ⟨k₁, same.kind own₁ here, reads.evolve same⟩
  children u below kept := by
    have read := h.children u below kept
    by_cases here : u.tag = x
    · subst here
      obtain ⟨s'', again, own'⟩ := Store.replace_of_lt (Store.node?_lt
        (Store.kind_eq_ok_iff.mp own).choose_spec.1) k'
      cases replaced.symm.trans again
      rw [Store.children_congr own own' parts (Store.lists_replace replaced)]
      exact read
    · exact (Store.evolves_replace replaced).children read here

theorem kind (h : Sound T s f) {u : Tree Nat Name} (below : u ∈ T.subtrees) :
    ∃ k, s.kind (some u.tag) = .ok k ∧ ∀ args, k ≠ .call none args := by
  obtain ⟨rank, ranked, heights⟩ := h.ranks
  obtain ⟨k, own, reads⟩ := ranked u.tag (by rw [heights u below]; omega)
  exact ⟨k, own, reads.callee⟩

theorem list (h : Sound T s f) {u : Tree Nat Name} (below : u ∈ T.subtrees) {k : NodeKind}
    (own : s.kind (some u.tag) = .ok k) {range : Range} (mem : .inr range ∈ k.parts) :
    ∃ slots, s.list range = .ok slots ∧ slots.length ≤ Store.maxListLength := by
  obtain ⟨rank, ranked, heights⟩ := h.ranks
  obtain ⟨k', own', reads⟩ := ranked u.tag (by rw [heights u below]; omega)
  cases own.symm.trans own'
  obtain ⟨short, slots, read, -⟩ := reads.lists range mem
  exact ⟨slots, read, Store.length_of_list read ▸ short⟩

theorem child (h : Sound T s f) {u : Tree Nat Name} (below : u ∈ T.subtrees)
    (kept : f.isReplaced (some u.tag) = false) {k : NodeKind} (own : s.kind (some u.tag) = .ok k)
    {y : Nat} (mem : .inl (some y) ∈ k.parts ∨ ∃ range list, .inr range ∈ k.parts ∧
      s.list range = .ok list ∧ some y ∈ list) : ∃ c ∈ u.children, c.tag = y :=
  List.mem_map.mp ((Store.mem_children_iff own (h.children u below kept)).mpr mem)

end Sound

/-! ## Rules -/

namespace Engine

variable {T u : Tree Nat Name} {q : Pass τ} {enclosing : Slot} {E : Engine} {F : Fault → Prop}

abbrev Rests (T : Tree Nat Name) (q : Pass τ) : Prop := Sound T q.store q.facts

/-- A node becomes a call of a library member, when the member and the arguments are there. -/
theorem ensures_call {s : Store} (h : Sound T s q.facts) (below : u ∈ T.subtrees)
    {library property : Name} {span : Span}
    (grown : (s.withMember library property span).Evolves (fun _ => False) q.store)
    {rank : Nat → Nat} (ranks : q.store.Ranks T rank) (callee : rank (s.size + 1) = 2)
    {range : Range} {slots : List Slot} (list : q.store.list range = .ok slots)
    (short : slots.length ≤ Store.maxListLength)
    (args : ∀ y, some y ∈ slots → 0 < rank y ∧ rank y < rank u.tag) (rule : Rule) :
    Ensures F (do
      PassM.replace (some u.tag) (.call (some (s.size + 1)) range)
      applied enclosing u.tag rule) q fun _ q' =>
        Rests T q' ∧ s.BecomesCall q'.store library u.tag property range ∧
          q'.store.list range = .ok slots := by
  obtain ⟨rank₀, before⟩ := h.ranks
  have old : u.tag < s.size := before.lt_size below
  obtain ⟨s', replaced, step, moved⟩ := Store.becomesCall grown old range
  have top := ranks.heights u below
  have reads : q.store.Reads (fun y => 0 < rank y ∧ rank y < rank u.tag)
      (.call (some (s.size + 1)) range) := by
    apply Store.reads_call _ list short args
    omega
  refine .step (PassM.replace_eq replaced) (.of_ok (applied_eq enclosing u.tag rule _) ?_)
  refine ⟨?_, step, moved.list list⟩
  refine h.replace ((Store.evolves_withMember ..).trans grown) ranks replaced reads fun slot kept => ?_
  rw [Facts.isReplaced_marked, Bool.or_eq_false_iff] at kept
  exact ⟨kept.2, by simpa using kept.1⟩

/--
What is below a node that was entered: perhaps a library member that was added for it,
and else only what was below it before.
-/
def Opened (u : Tree Nat Name) (s : Store) : Prop :=
  ∃ front rest, s.children (some u.tag) = .ok (front ++ rest) ∧
    (∀ m ∈ front, ∃ o property name, s.kind (some m) = .ok (.member (some o) property) ∧
      s.kind (some o) = .ok (.ident name)) ∧
    ∀ y ∈ rest, ∃ c ∈ u.children, c.tag = y

theorem opened_of_becomesCall {s s' : Store} {library property : Name} {args : Range}
    {slots : List Slot} (step : s.BecomesCall s' library u.tag property args)
    (list : s'.list args = .ok slots)
    (inside : ∀ y, some y ∈ slots → ∃ c ∈ u.children, c.tag = y) : Opened u s' := by
  refine ⟨[s.size + 1], slots.filterMap id, Store.children_call step.call list, fun m mem => ?_,
    fun y mem => inside y (by simpa using mem)⟩
  cases List.mem_singleton.mp mem
  exact ⟨s.size, property, library, step.callee, step.object⟩

section Lower

variable (h : Rests T q) (below : u ∈ T.subtrees)

include h below

theorem ensures_lowerLiteral (digits : Name) (span : Span) :
    Ensures (·.isOverflow) (E.lowerLiteral enclosing u.tag digits span) q fun _ q' => Rests T q' := by
  obtain ⟨rank, before⟩ := h.ranks
  obtain ⟨rank₁, ranks₁, old₁, two⟩ := before.withMember E.library.library E.library.factory span
  let s₁ := q.store.withMember E.library.library E.library.factory span
  have size₁ : s₁.size = q.store.size + 2 := Store.size_withMember ..
  have leaf : s₁.Reads (fun y => 0 < rank₁ y ∧ rank₁ y < 1) (.str digits) :=
    Store.reads_leaf rfl nofun
  have ranked₂ := ranks₁.ranked.push leaf span
  have short : [some s₁.size].length ≤ Store.maxListLength := by simp [Store.maxListLength]
  obtain ⟨range, s₂, stored⟩ := (s₁.push (.str digits) span).exists_append [some s₁.size]
  have listed : (s₁.push (.str digits) span).Evolves (fun _ => False) s₂ :=
    Store.evolves_append stored
  have ranks := ranks₁.extend (ranked₂.evolve listed) fun x bound => if_neg (Nat.ne_of_lt bound)
  refine .attained (E.libraryMember_attains _ span) (.attained (PassM.alloc_attains _ span) ?_)
  refine .attained (PassM.allocList_attains short stored) ?_
  refine (ensures_call (u := u) (q := { q with store := s₂ }) h below
    ((Store.evolves_push s₁ _ span).trans listed) ranks ?_ (Store.list_append stored)
    short (fun y mem => ?_) .literal).mono fun _ _ post => post.1
  · have other : q.store.size + 1 ≠ s₁.size := by omega
    rw [if_neg other]
    exact two
  · cases List.mem_singleton.mp mem
    have top := ranks.heights u below
    rw [if_pos rfl, top]
    omega

theorem ensures_lowerConstructor (kept : q.facts.isReplaced (some u.tag) = false) {callee : Slot}
    {args : Range} (own : q.store.kind (some u.tag) = .ok (.call callee args)) {n : Node}
    (found : q.store.node? callee = some n) :
    Ensures (·.isOverflow) (E.lowerConstructor enclosing u.tag callee args) q fun _ q' =>
      Rests T q' ∧ Opened u q'.store := by
  obtain ⟨rank, before⟩ := h.ranks
  obtain ⟨rank₁, ranks, old, two⟩ :=
    before.withMember E.library.library (E.library.memberFor n.kind) n.span
  have part : .inr args ∈ (Kind.call callee args : NodeKind).parts := by simp [Kind.parts]
  obtain ⟨slots, list, short⟩ := h.list below own part
  let s₁ := q.store.withMember E.library.library (E.library.memberFor n.kind) n.span
  have grown : q.store.Evolves (fun _ => False) s₁ := Store.evolves_withMember ..
  have inside : ∀ y, some y ∈ slots → ∃ c ∈ u.children, c.tag = y := fun y mem =>
    h.child below kept own (.inr ⟨args, slots, part, list, mem⟩)
  refine .step (PassM.node_eq found) (.attained (E.libraryMember_attains _ n.span) ?_)
  refine (ensures_call (u := u) (q := { q with store := s₁ }) h below (.refl s₁) ranks two
    (grown.list list) short (fun y mem => ?_) .constructor).mono fun _ q' post => ⟨post.1, ?_⟩
  · obtain ⟨c, child, rfl⟩ := inside y mem
    have := ranks.child below child
    omega
  · exact opened_of_becomesCall post.2.1 post.2.2 inside

theorem ensures_lowerOperation [Naming τ] (kept : q.facts.isReplaced (some u.tag) = false) {k : NodeKind}
    (own : q.store.kind (some u.tag) = .ok k) (span : Span) (method : String) {operands : List Slot}
    (two : operands.length ≤ 2) (parts : ∀ slot ∈ operands, .inl slot ∈ k.parts) (rule : Rule) :
    Ensures (·.isOverflow) (E.lowerOperation enclosing u.tag span method operands rule) q fun _ q' =>
      Rests T q' ∧ Opened u q'.store := by
  obtain ⟨rank, before⟩ := h.ranks
  let property := (Naming.intern q.names method).1
  obtain ⟨rank₁, ranks, old, callee⟩ := before.withMember E.library.library property span
  have short : operands.length ≤ Store.maxListLength := by
    unfold Store.maxListLength
    omega
  obtain ⟨range, s₁, stored⟩ :=
    (q.store.withMember E.library.library property span).exists_append operands
  have listed : (q.store.withMember E.library.library property span).Evolves (fun _ => False) s₁ :=
    Store.evolves_append stored
  have inside : ∀ y, some y ∈ operands → ∃ c ∈ u.children, c.tag = y := fun y mem =>
    h.child below kept own (.inl (parts _ mem))
  refine .step (PassM.intern_eq method) (.attained (E.libraryMember_attains property span) ?_)
  refine .attained (PassM.allocList_attains short stored) ?_
  refine (ensures_call (u := u)
    (q := { q with store := s₁, names := (Naming.intern q.names method).2 }) h below listed
    ⟨ranks.ranked.evolve listed, ranks.heights⟩ callee (Store.list_append stored) short
    (fun y mem => ?_) rule).mono fun _ q' post => ⟨post.1, ?_⟩
  · obtain ⟨c, child, rfl⟩ := inside y mem
    have := ranks.child below child
    omega
  · exact opened_of_becomesCall post.2.1 post.2.2 inside

end Lower

/-! ## Entering -/

def Entered (T u : Tree Nat Name) (step : Step) (q : Pass τ) : Prop :=
  Rests T q ∧
    match step with
    | .done => True
    | .below => Opened u q.store
    | .compound _ target value => Opened u q.store ∧
        ∀ y, target = some y ∨ value = some y → ∃ c ∈ u.children, c.tag = y

theorem opened_of_kept (h : Rests T q) (below : u ∈ T.subtrees)
    (kept : q.facts.isReplaced (some u.tag) = false) : Opened u q.store :=
  ⟨[], _, h.children u below kept, nofun, fun _ mem => List.mem_map.mp mem⟩

section Judged

variable (cached : E.judge = .cached)

include cached

/-- Judging changes no node, and does not say of any that it was replaced. -/
theorem ensures_someBig (slots : List Slot) : Ensures F (E.someBig slots) q fun _ q' =>
    ∃ f, q' = { q with facts := f } ∧ f.isReplaced = q.facts.isReplaced := by
  refine .of_ok rfl ⟨_, rfl, ?_⟩
  rw [cached]
  exact Judge.isReplaced_cached slots q.facts

variable [Naming τ] (h : Rests T q) (below : u ∈ T.subtrees)

include h below

theorem ensures_tryOperation (kept : q.facts.isReplaced (some u.tag) = false) {k : NodeKind}
    (own : q.store.kind (some u.tag) = .ok k) (span : Span) (method? : Option String)
    {operands : List Slot} (two : operands.length ≤ 2) (parts : ∀ slot ∈ operands, .inl slot ∈ k.parts)
    (rule : Rule) :
    Ensures (·.isOverflow) (E.tryOperation enclosing u.tag span method? operands rule) q fun _ q' =>
      Rests T q' ∧ Opened u q'.store := by
  cases method? with
  | none => exact .pure ⟨h, opened_of_kept h below kept⟩
  | some method =>
    refine .bind (ensures_someBig cached operands) fun big q' judged => ?_
    obtain ⟨f, rfl, same⟩ := judged
    have rests : Sound T q.store f := h.mono fun slot kept => same ▸ kept
    have kept' : f.isReplaced (some u.tag) = false := same ▸ kept
    cases big with
    | true =>
      exact ensures_lowerOperation (q := { q with facts := f }) rests below kept' own span method
        two parts rule
    | false => exact .pure ⟨rests, opened_of_kept (q := { q with facts := f }) rests below kept'⟩

theorem ensures_enterNode (kept : q.facts.isReplaced (some u.tag) = false) {n : Node}
    (found : q.store.node? (some u.tag) = some n) :
    Ensures (·.isOverflow) (E.enterNode enclosing u.tag n) q (Entered T u) := by
  have own : q.store.kind (some u.tag) = .ok n.kind := Store.kind_eq_ok_iff.mpr ⟨n, found, rfl⟩
  have opened := opened_of_kept h below kept
  have other : Ensures (·.isOverflow) (Pure.pure Step.below : PassM τ Step) q (Entered T u) :=
    .pure ⟨h, opened⟩
  obtain ⟨kind, span⟩ := n
  cases kind with
  | bigInt digits =>
    exact .bind (ensures_lowerLiteral h below digits span) fun _ q' rests => .pure ⟨rests, trivial⟩
  | call callee args =>
    refine .get ?_
    by_cases constructor : q.store.isConstructor E.library.constructor callee = true
    · obtain ⟨n, callee?⟩ : ∃ n, q.store.node? callee = some n := by
        cases callee? : q.store.node? callee with
        | none => simp [Store.isConstructor, callee?] at constructor
        | some n => exact ⟨n, rfl⟩
      simp only [constructor, if_true]
      exact .bind (ensures_lowerConstructor h below kept own callee?) fun _ q' post => .pure post
    · simp only [constructor]
      exact other
  | binary op left right =>
    refine .bind (ensures_tryOperation cached h below kept own span op.method? (by simp)
      (fun slot mem => ?_) .binary) fun _ q' post => .pure post
    simpa [Kind.parts] using mem
  | unary op operand =>
    refine .bind (ensures_tryOperation cached h below kept own span op.method? (by simp)
      (fun slot mem => ?_) .unary) fun _ q' post => .pure post
    simpa [Kind.parts] using mem
  | assign op target value =>
    unfold enterNode
    dsimp only
    cases op.method? with
    | none => exact other
    | some method =>
      refine .bind (ensures_someBig cached [value]) fun big q' judged => ?_
      obtain ⟨f, rfl, same⟩ := judged
      have rests : Sound T q.store f := h.mono fun slot kept => same ▸ kept
      cases big with
      | true =>
        refine .pure ⟨rests, opened, fun y mem => h.child below kept own (.inl ?_)⟩
        simpa [Kind.parts, eq_comm] using mem
      | false => exact .pure ⟨rests, opened⟩
  | _ => exact other

theorem ensures_enter : Ensures (·.isOverflow) (E.enter enclosing u.tag) q (Entered T u) := by
  unfold enter
  refine .get ?_
  dsimp only
  split
  · exact .pure ⟨h, trivial⟩
  · rename_i open?
    obtain ⟨k, own, -⟩ := h.kind below
    obtain ⟨n, found, -⟩ := Store.kind_eq_ok_iff.mp own
    have kept : q.facts.isReplaced (some u.tag) = false := by
      unfold Facts.isReplaced
      simp only [Bool.or_eq_true, not_or, Bool.not_eq_true] at open?
      exact open?.1
    exact .lift (Store.node_eq_ok_iff.mpr found) (ensures_enterNode cached h below kept found)

/-! ## Leaving -/

omit cached below in
theorem ensures_redirectMember {callee : Nat} {object : Slot} {property : Name}
    (member : q.store.kind (some callee) = .ok (.member object property)) :
    Ensures F (E.redirectMember (some callee) object property) q fun _ q' =>
      Rests T q' ∧ q'.facts = q.facts := by
  unfold redirectMember
  refine .get ?_
  split
  · rename_i ident
    obtain ⟨o, name, rfl, own⟩ : ∃ o name, object = some o ∧ q.store.kind (some o) = .ok (.ident name) := by
      cases object with
      | none => simp [Store.isIdent, Store.node?] at ident
      | some o =>
        unfold Store.isIdent at ident
        split at ident
        · rename_i found
          exact ⟨o, _, rfl, Store.kind_of_node? found⟩
        · cases ident
    have bound {x : Nat} {k : NodeKind} (own : q.store.kind (some x) = .ok k) : x < q.store.size :=
      Store.node?_lt (Store.kind_eq_ok_iff.mp own).choose_spec.1
    obtain ⟨s₁, first, -⟩ := Store.replace_of_lt (bound own) (.ident E.library.library)
    have rests := h.respell own first rfl (by simp)
    have different : callee ≠ o := by
      intro same
      subst same
      cases own.symm.trans member
    have still := (Store.evolves_replace first).kind member different
    let text := (Naming.intern q.names (mathMethod (Naming.text q.names property))).1
    obtain ⟨s₂, second, -⟩ := Store.replace_of_lt
      (Store.size_replace first ▸ bound member) (.member (some o) text)
    let interned := (Naming.intern q.names (mathMethod (Naming.text q.names property))).2
    refine .step (PassM.intern_eq _) (.step (PassM.replace_eq (q := { q with names := interned }) first) ?_)
    exact .of_ok (PassM.replace_eq second) ⟨rests.respell still second rfl (by simp), rfl⟩
  · exact .pure ⟨h, rfl⟩

theorem ensures_leave : Ensures F (E.leave enclosing u.tag) q fun _ q' => Rests T q' := by
  unfold leave
  refine .get ?_
  split
  · rename_i asked
    have kept : q.facts.isReplaced (some u.tag) = false := by
      simp only [Bool.and_eq_true, Bool.not_eq_true'] at asked
      exact asked.2
    obtain ⟨k, own, callees⟩ := h.kind below
    refine .lift own ?_
    cases k with
    | call callee args =>
      cases callee with
      | none => exact (callees args rfl).elim
      | some m =>
        obtain ⟨c, child, rfl⟩ := h.child below kept own (.inl List.mem_cons_self)
        obtain ⟨k, there, -⟩ := h.kind (Tree.subtrees_trans below (Tree.child_mem_subtrees child))
        refine .lift there ?_
        cases k with
        | member object property =>
          have part : .inr args ∈ (Kind.call (some c.tag) args : NodeKind).parts := by
            simp [Kind.parts]
          obtain ⟨slots, list, -⟩ := h.list below own part
          refine .lift list (.bind (ensures_someBig cached slots) fun big q' judged => ?_)
          obtain ⟨f, rfl, same⟩ := judged
          have rests : Sound T q.store f := h.mono fun slot kept => same ▸ kept
          cases big with
          | true =>
            refine .bind (ensures_redirectMember (q := { q with facts := f }) rests there)
              fun _ q' post => .of_ok (applied_eq ..) (post.1.mono fun slot kept => ?_)
            rw [Facts.isReplaced_marked, Bool.or_eq_false_iff] at kept
            exact kept.2
          | false => exact .pure rests
        | _ => exact .pure h
    | _ => exact .pure h
  · exact .pure h

end Judged

/-! ## Compound assignments -/

/-- A deep copy can be ranked, not higher than what was copied. -/
theorem copy_ranked {s : Store} {rank : Nat → Nat} (before : s.Ranks T rank) {slot : Slot}
    (known : ∀ y, slot = some y → 0 < rank y) :
    ∃ copied s' rank', Attains (s.deepCopy slot) (copied, s') s s' ∧ s.Evolves (fun _ => False) s' ∧
      s'.Ranks T rank' ∧ (∀ x, x < s.size → rank' x = rank x) ∧
      ∀ x, copied.root = some x → ∃ y, slot = some y ∧ 0 < rank' x ∧ rank' x ≤ rank y := by
  cases slot with
  | none =>
    exact ⟨⟨none, []⟩, s, rank, .of_eq rfl (.refl s) rfl, .refl s, before, fun _ _ => rfl, nofun⟩
  | some y =>
    have known' := known y rfl
    obtain ⟨D, rfl, holds⟩ := before.ranked.holds known'
    have fit := before.ranked.listsFit holds known'
    have callees := before.ranked.calleesPresent holds known'
    obtain ⟨D', pairs, s', duplicate, run⟩ := holds.deepCopy_attains fit
    have alike : D'.form = D.form := Option.some.inj duplicate.alike
    have fit' : D'.ListsFit := by
      rw [Tree.listsFit_iff_everywhere, ← Tree.everywhere_form, alike, Tree.everywhere_form,
        ← Tree.listsFit_iff_everywhere]
      exact fit
    have callees' : D'.CalleesPresent := by
      rw [Tree.calleesPresent_iff_everywhere, ← Tree.everywhere_form, alike, Tree.everywhere_form,
        ← Tree.calleesPresent_iff_everywhere]
      exact callees
    have height : D'.height = D.height := by
      rw [← D'.height_form, alike, D.height_form]
    obtain ⟨rank', ranked, old, top⟩ := before.ranked.copy duplicate.grown
      (duplicate.holds D' rfl) (fun x mem => (duplicate.fresh D' rfl x mem).1) fit' callees'
    refine ⟨_, s', rank', run, duplicate.grown, before.extend ranked old, old, fun x root => ?_⟩
    cases root
    have low := before.ranked.height_le holds known'
    refine ⟨D.tag, rfl, ?_⟩
    rw [top, height]
    exact ⟨D.height_pos, low⟩

/-- The result of a library call can be stored: the call stands between the node and its parts. -/
theorem assign_ranked {s : Store} {rank : Nat → Nat} (before : s.Ranks T rank)
    (below : u ∈ T.subtrees) (library property : Name) (span : Span) {target copy value : Slot}
    (small : ∀ y, target = some y ∨ copy = some y ∨ value = some y →
      0 < rank y ∧ rank y + 1 < rank u.tag) :
    ∃ range s₁ s' rank',
      (s.withMember library property span).append [copy, value] = (range, s₁) ∧
      s₁.size = s.size + 2 ∧
      s.Evolves (fun _ => False) (s₁.push (.call (some (s.size + 1)) range) span) ∧
      (s₁.push (.call (some (s.size + 1)) range) span).replace (some u.tag)
        (.assign .plain target (some (s.size + 2))) = .ok s' ∧
      (s₁.push (.call (some (s.size + 1)) range) span).Ranks T rank' ∧
      (s₁.push (.call (some (s.size + 1)) range) span).Reads
        (fun y => 0 < rank' y ∧ rank' y < rank' u.tag) (.assign .plain target (some (s.size + 2))) := by
  have short : [copy, value].length ≤ Store.maxListLength := by simp [Store.maxListLength]
  have bound := before.lt_size below
  obtain ⟨range, s₁, s', stored, size, replaced, grown, -⟩ :=
    Store.becomesAssign s library property span bound target [copy, value]
  obtain ⟨rank₁, ranks₁, old₁, two⟩ := before.withMember library property span
  have listed : (s.withMember library property span).Evolves (fun _ => False) s₁ :=
    Store.evolves_append stored
  have below₁ {y : Nat} (part : target = some y ∨ copy = some y ∨ value = some y) :
      y < s.size ∧ 0 < rank₁ y ∧ rank₁ y < rank₁ u.tag - 1 := by
    have := small y part
    have here : y < s.size := before.ranked.lt_size this.1
    rw [old₁ y here, old₁ u.tag bound]
    omega
  have top := ranks₁.heights u below
  have call : s₁.Reads (fun y => 0 < rank₁ y ∧ rank₁ y < rank₁ u.tag - 1)
      (.call (some (s.size + 1)) range) := by
    refine Store.reads_call ?_ (Store.list_append stored) short fun y mem => ?_
    · omega
    · rcases List.mem_pair.mp mem with same | same
      · exact (below₁ (.inr (.inl same.symm))).2
      · exact (below₁ (.inr (.inr same.symm))).2
  have ranked := (ranks₁.ranked.evolve listed).push call span
  have old : ∀ x, x < s₁.size → (if x = s₁.size then rank₁ u.tag - 1 else rank₁ x) = rank₁ x :=
    fun x bound => if_neg (Nat.ne_of_lt bound)
  have ranks := Store.Ranks.extend ⟨ranks₁.ranked.evolve listed, ranks₁.heights⟩ ranked old
  refine ⟨range, s₁, s', _, stored, size, grown, replaced, ranks, Store.reads_assign fun y part => ?_⟩
  rw [old u.tag (by omega)]
  rcases part with same | same
  · have := below₁ (.inl same)
    rw [old y (by omega)]
    omega
  · cases same
    rw [if_pos size.symm]
    omega

theorem isReplaced_of_afterCopy {f : Facts} {pairs : List (Nat × Nat)} {slot : Slot}
    (kept : (f.afterCopy pairs).isReplaced slot = false) : f.isReplaced slot = false := by
  induction pairs generalizing f with
  | nil => exact kept
  | cons pair rest ih =>
    have first := ih (f := f.copyFlags (some pair.1) (some pair.2)) kept
    rw [Facts.isReplaced_copyFlags, Bool.or_eq_false_iff] at first
    exact first.1

theorem ensures_lowerCompound [Naming τ] (h : Rests T q) (below : u ∈ T.subtrees) (method : String)
    {target value : Slot}
    (parts : ∀ y, target = some y ∨ value = some y → ∃ c ∈ u.children, c.tag = y) :
    Ensures (·.isOverflow) (E.lowerCompound enclosing u.tag method target value) q fun _ q' =>
      Rests T q' := by
  obtain ⟨rank, before⟩ := h.ranks
  have small {y : Nat} (part : target = some y ∨ value = some y) :
      0 < rank y ∧ rank y + 1 < rank u.tag ∧ y < q.store.size := by
    obtain ⟨c, child, rfl⟩ := parts y part
    have := before.child below child
    have bound := before.lt_size (Tree.subtrees_trans below (Tree.child_mem_subtrees child))
    omega
  obtain ⟨copied, s₁, rank₁, copy, grown₁, ranks₁, old₁, root⟩ :=
    copy_ranked before fun y same => (small (.inl same)).1
  have small₁ : ∀ y, target = some y ∨ copied.root = some y ∨ value = some y →
      0 < rank₁ y ∧ rank₁ y + 1 < rank₁ u.tag := by
    intro y part
    rw [old₁ u.tag (before.lt_size below)]
    rcases part with same | same | same
    · have := small (.inl same)
      rw [old₁ y this.2.2]
      omega
    · obtain ⟨z, target, known, low⟩ := root y same
      have := small (.inl target)
      omega
    · have := small (.inr same)
      rw [old₁ y this.2.2]
      omega
  have top := ranks₁.heights u below
  obtain ⟨k, own, -⟩ := ranks₁.ranked u.tag (by omega)
  obtain ⟨n, found, -⟩ := Store.kind_eq_ok_iff.mp own
  obtain ⟨range, s₂, s', rank₂, stored, size, grown₂, replaced, ranks₂, reads⟩ :=
    assign_ranked ranks₁ below E.library.library (Naming.intern q.names method).1 n.span small₁
  refine .attained (PassM.copy_attains copy) (.step (PassM.node_eq found) ?_)
  refine .step (PassM.intern_eq method) (.attained (E.libraryMember_attains _ n.span) ?_)
  refine .attained (PassM.allocList_attains (by simp [Store.maxListLength]) stored) ?_
  refine .attained (PassM.alloc_attains _ n.span) ?_
  dsimp only
  rw [size]
  refine .step (PassM.learn_eq _) (.step (PassM.replace_eq replaced) ?_)
  refine .of_ok (applied_eq ..)
    (h.replace (grown₁.trans grown₂) ranks₂ replaced reads fun slot kept => ?_)
  rw [Facts.isReplaced_marked, Facts.isReplaced_markTainted, Facts.markReplaced,
    Facts.isReplaced_add, Bool.or_eq_false_iff, Bool.or_eq_false_iff] at kept
  exact ⟨isReplaced_of_afterCopy kept.2.1, by simpa using kept.1⟩

/-! ## The walk -/

theorem ensures_descend {walk : Slot → Nat → PassM τ Unit} {x : Nat} {below : List Nat}
    (read : q.store.children (some x) = .ok below) {Q : Unit → Pass τ → Prop}
    (each : ∀ inner, Ensures F (below.forM (walk inner)) q Q) :
    Ensures F (descend walk enclosing x) q Q :=
  .get (.lift read (each _))

structure OnlySettles (q q' : Pass τ) : Prop where
  same : q' = { q with facts := q'.facts }
  replaced : ∀ slot, q'.facts.isReplaced slot = q.facts.isReplaced slot
  tainted : ∀ slot, q'.facts.isTainted slot = q.facts.isTainted slot
  bindings : q'.facts.bindings = q.facts.bindings
  settled : ∀ slot, q.facts.isSettled slot = true → q'.facts.isSettled slot = true

namespace OnlySettles

variable {q₁ q' : Pass τ}

theorem refl (q : Pass τ) : OnlySettles q q :=
  ⟨rfl, fun _ => rfl, fun _ => rfl, rfl, fun _ => id⟩

theorem trans (first : OnlySettles q q₁) (second : OnlySettles q₁ q') : OnlySettles q q' where
  same := by rw [second.same, first.same]
  replaced slot := (second.replaced slot).trans (first.replaced slot)
  tainted slot := (second.tainted slot).trans (first.tainted slot)
  bindings := second.bindings.trans first.bindings
  settled slot settled := second.settled slot (first.settled slot settled)

theorem store (h : OnlySettles q q') : q'.store = q.store := by
  rw [h.same]

theorem settle (q : Pass τ) (x : Nat) :
    OnlySettles q { q with facts := q.facts.markSettled (some x) } where
  same := rfl
  replaced _ := Facts.isReplaced_markSettled ..
  tainted _ := by simp [Facts.markSettled]
  bindings := by simp [Facts.markSettled]
  settled _ settled := by simp [settled]

end OnlySettles

section Walk

variable [Naming τ]

/--
A walk enters a node, goes below it, does what was left to do, and settles it. What
holds all along from the entering on, holds in the end.
-/
theorem ensures_lowerWithin {fuel x : Nat} (there : x < q.store.size) {P : Step → Pass τ → Prop}
    {Good : Pass τ → Prop} (entered : Ensures F (E.enter enclosing x) q P)
    (enough : ∀ step q', P step q' → Good q')
    (descends : ∀ step q', P step q' → step ≠ .done →
      Ensures F (descend (E.lowerWithin fuel) enclosing x) q' fun _ q'' => Good q'')
    (leaves : ∀ q', Good q' → Ensures F (E.leave enclosing x) q' fun _ q'' => Good q'')
    (stores : ∀ method target value q₁, P (.compound method target value) q₁ → ∀ q', Good q' →
      Ensures F (E.lowerCompound enclosing x method target value) q' fun _ q'' => Good q'')
    (settles : ∀ q', Good q' → Good { q' with facts := q'.facts.markSettled (some x) }) :
    Ensures F (E.lowerWithin (fuel + 1) enclosing x) q fun _ q' => Good q' := by
  have last (q' : Pass τ) (good : Good q') :
      Ensures F (PassM.learn fun f => f.markSettled (some x)) q' fun _ q'' => Good q'' :=
    .of_ok (PassM.learn_eq _) (settles q' good)
  unfold lowerWithin
  refine .get ?_
  have inside : q.store.contains (some x) = true := decide_eq_true there
  rw [if_pos inside]
  refine .bind entered fun step q' post => ?_
  cases step with
  | done => exact last q' (enough _ q' post)
  | below =>
    refine .bind (descends _ q' post (by simp)) fun _ q₁ good => ?_
    exact .bind (leaves q₁ good) fun _ q₂ => last q₂
  | compound method target value =>
    refine .bind (descends _ q' post (by simp)) fun _ q₁ good => ?_
    exact .bind (stores method target value q' post q₁ good) fun _ q₂ => last q₂

/-- Over an identifier, a string or a member there is nothing to do. -/
theorem ensures_idle {fuel x : Nat} {k : NodeKind} (own : q.store.kind (some x) = .ok k)
    (idle : (∃ name, k = .ident name ∨ k = .str name) ∨ ∃ object property, k = .member object property)
    {below : List Nat} (read : q.store.children (some x) = .ok below)
    (each : ∀ y ∈ below, ∀ q' inner, OnlySettles q q' →
      Ensures F (E.lowerWithin fuel inner y) q' fun _ q'' => OnlySettles q q'') :
    Ensures F (E.lowerWithin (fuel + 1) enclosing x) q fun _ q' => OnlySettles q q' := by
  obtain ⟨n, found, rfl⟩ := Store.kind_eq_ok_iff.mp own
  have entered : Ensures F (E.enter enclosing x) q fun step q' =>
      q' = q ∧ (step = .done ∨ step = .below) := by
    unfold enter
    refine .get ?_
    dsimp only
    split
    · exact .pure ⟨rfl, .inl rfl⟩
    · refine .lift (Store.node_eq_ok_iff.mpr found) ?_
      unfold enterNode
      rcases idle with ⟨name, same | same⟩ | ⟨object, property, same⟩ <;> rw [same]
      all_goals exact .pure ⟨rfl, .inr rfl⟩
  apply ensures_lowerWithin (Store.node?_lt found) entered
  · rintro step q' ⟨rfl, -⟩
    exact .refl q'
  · rintro step q' ⟨rfl, -⟩ -
    exact ensures_descend read fun inner => .forM (fun y mem q₁ => each y mem q₁ inner) (.refl _)
  · intro q' quiet
    unfold leave
    refine .get ?_
    split
    · rw [quiet.store]
      refine .lift own ?_
      rcases idle with ⟨name, same | same⟩ | ⟨object, property, same⟩ <;> rw [same]
      all_goals exact .pure quiet
    · exact .pure quiet
  · rintro method target value q₁ ⟨-, same | same⟩ <;> cases same
  · exact fun q' quiet => quiet.trans (.settle q' x)

theorem ensures_leaf {fuel x : Nat} {k : NodeKind} (own : q.store.kind (some x) = .ok k)
    (leaf : ∃ name, k = .ident name ∨ k = .str name) :
    Ensures F (E.lowerWithin (fuel + 1) enclosing x) q fun _ q' => OnlySettles q q' := by
  have read : q.store.children (some x) = .ok [] := by
    unfold Store.children
    rw [bind_of_eq own]
    obtain ⟨name, rfl | rfl⟩ := leaf <;> rfl
  exact ensures_idle own (.inl leaf) read nofun

theorem ensures_member {fuel m o : Nat} {property name : Name}
    (callee : q.store.kind (some m) = .ok (.member (some o) property))
    (object : q.store.kind (some o) = .ok (.ident name)) :
    Ensures F (E.lowerWithin (fuel + 2) enclosing m) q fun _ q' => OnlySettles q q' := by
  have read : q.store.children (some m) = .ok [o] := by
    unfold Store.children
    rw [bind_of_eq callee]
    rfl
  apply ensures_idle callee (.inr ⟨_, _, rfl⟩) read
  intro y mem q' inner quiet
  cases List.mem_singleton.mp mem
  have own : q'.store.kind (some o) = .ok (.ident name) := quiet.store ▸ object
  exact (ensures_leaf own ⟨name, .inl rfl⟩).mono fun _ q'' => quiet.trans

/-- A walk over a tree comes to an end, if it may go deep enough and the store does not get full. -/
theorem ensures_lowered (cached : E.judge = .cached) {fuel : Nat} (below : u ∈ T.subtrees)
    (enough : u.height + 2 ≤ fuel) (h : Rests T q) :
    Ensures (·.isOverflow) (E.lowerWithin fuel enclosing u.tag) q fun _ q' => Rests T q' := by
  induction fuel generalizing u q enclosing with
  | zero => omega
  | succ fuel ih =>
    obtain ⟨rank, before⟩ := h.ranks
    apply ensures_lowerWithin (before.lt_size below) (ensures_enter cached h below)
    · exact fun step q' post => post.1
    · intro step q' post undone
      have opened : Opened u q'.store := by
        cases step with
        | done => exact (undone rfl).elim
        | below => exact post.2
        | compound method target value => exact post.2.1
      obtain ⟨front, rest, read, members, children⟩ := opened
      refine ensures_descend read fun inner => ?_
      have quiet : Ensures (·.isOverflow) (front.forM (E.lowerWithin fuel inner)) q' fun _ q'' =>
          OnlySettles q' q'' := by
        refine .forM (fun m mem q₁ before => ?_) (.refl q')
        obtain ⟨o, property, name, callee, object⟩ := members m mem
        obtain ⟨fuel, rfl⟩ : ∃ n, fuel = n + 2 := ⟨fuel - 2, by have := u.height_pos; omega⟩
        rw [← before.store] at callee object
        exact (ensures_member callee object).mono fun _ q₂ after => before.trans after
      refine .forM_append quiet fun q₁ before => ?_
      have rests : Rests T q₁ := by
        unfold Rests
        rw [before.store]
        exact post.1.mono fun slot kept => (before.replaced slot).symm.trans kept
      refine .forM (fun y mem q₂ good => ?_) rests
      obtain ⟨c, child, rfl⟩ := children y mem
      have shorter := Tree.height_lt child
      exact ih (Tree.subtrees_trans below (Tree.child_mem_subtrees child)) (by omega) good
    · exact fun q' rests => ensures_leave cached rests below
    · intro method target value q₁ post q' rests
      exact ensures_lowerCompound rests below method post.2.2
    · intro q' rests
      exact rests.mono fun slot kept => (Facts.isReplaced_markSettled ..).symm.trans kept

end Walk

end Engine

end BigLower
