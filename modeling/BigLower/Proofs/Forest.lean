import BigLower.Proofs.Compound

/-! # Walks over several trees

What the walk over a tree needs and what it leaves. Trees next to each other do
not share nodes, so walks over them are put together to a walk over all, and to
one over a tree whose top is kept.
-/

namespace BigLower

namespace Tree

def isName {α : Type} (T : Tree α Name) : Bool :=
  match T.kind with
  | .ident _ => true
  | _ => false

/-- Whether the tree is a string, an identifier, or a member of one; no rule is for such a tree. -/
def isSimple {α : Type} (T : Tree α Name) : Bool :=
  match T.kind with
  | .ident _ | .str _ => true
  | .member object _ => object.any isName
  | _ => false

variable {α β : Type}

theorem isName_relabel (f : α → β) (T : Tree α Name) : (T.relabel f).isName = T.isName := by
  unfold isName
  rw [kind_relabel]
  cases T.kind <;> rfl

theorem isSimple_relabel (f : α → β) (T : Tree α Name) : (T.relabel f).isSimple = T.isSimple := by
  unfold isSimple
  rw [kind_relabel]
  cases T.kind with
  | member object property =>
    cases object with
    | none => rfl
    | some o => exact isName_relabel f o
  | _ => rfl

theorem isSimple_of_libraryMember {library property : Name} {o m : Nat} {v : Tree Nat Name}
    (below : v ∈ (libraryMember library property o m).subtrees) :
    (v.tag = o ∨ v.tag = m) ∧ v.isSimple = true := by
  rcases mem_subtrees_iff.mp below with rfl | ⟨c, child, inside⟩
  · exact ⟨.inr rfl, rfl⟩
  · cases List.mem_singleton.mp child
    rcases mem_subtrees_iff.mp inside with rfl | ⟨d, child', -⟩
    · exact ⟨.inl rfl, rfl⟩
    · cases child'

end Tree

namespace Setup

variable {τ : Type} {C : Setup} {q q₁ q' : Pass τ} {P : Plan} {T T' : Tree Nat Name}
  {enclosing : Slot} {fuel : Nat}

/-! ## Before and after -/

structure Ready (C : Setup) (q : Pass τ) (P : Plan) (T : Tree Nat Name) : Prop where
  below : T ∈ C.tree.subtrees
  holds : q.store.Holds T
  untouched : ∀ x ∈ T.ids, Untouched q x
  waiting : ∀ x ∈ T.ids, x ∉ P.pending

theorem Ready.children (h : C.Ready q P T) {c : Tree Nat Name} (child : c ∈ T.children) :
    C.Ready q P c :=
  ⟨Tree.subtrees_trans h.below (Tree.child_mem_subtrees child), h.holds.child child,
    fun x inside => h.untouched x (Tree.mem_ids_of_child child inside),
    fun x inside => h.waiting x (Tree.mem_ids_of_child child inside)⟩

theorem Ready.distinct (h : C.Ready q P T) : T.ids.Nodup :=
  Tree.nodup_subtree C.distinct h.below

theorem Ready.lt_size (h : C.Ready q P T) : T.tag < q.store.size :=
  h.holds.lt_size T.tag_mem_ids

def SameFlags (ids : List Nat) (q q' : Pass τ) : Prop :=
  ∀ x, x < q.store.size → x ∉ ids →
    q'.facts.isReplaced (some x) = q.facts.isReplaced (some x) ∧
      q'.facts.isSettled (some x) = q.facts.isSettled (some x)

/-- Nothing is changed but the facts, and none of these is a new taint. -/
structure Idle (q q' : Pass τ) : Prop where
  same : q' = { q with facts := q'.facts }
  tainted : ∀ slot, q'.facts.isTainted slot = q.facts.isTainted slot

theorem Idle.refl (q : Pass τ) : Idle q q := ⟨rfl, fun _ => rfl⟩

theorem Idle.trans (first : Idle q q₁) (second : Idle q₁ q') : Idle q q' :=
  ⟨by rw [second.same, first.same], fun slot => (second.tainted slot).trans (first.tainted slot)⟩

theorem Idle.settle (q : Pass τ) (x : Nat) :
    Idle q { q with facts := q.facts.markSettled (some x) } :=
  ⟨rfl, fun slot => by simp [Facts.markSettled]⟩

/--
Nothing is left to do at the top of a tree: it is settled, or it was added by a rule
and is replaced or simple.
-/
def Finished (C : Setup) (q : Pass τ) (v : Tree Nat Name) : Prop :=
  q.facts.isSettled (some v.tag) = true ∨
    C.store.size ≤ v.tag ∧ (q.facts.isReplaced (some v.tag) = true ∨ v.isSimple = true)

theorem Finished.of_marks {v v' : Tree Nat Name} (h : C.Finished q v)
    (same : marks q' v'.tag = marks q v.tag) (new : C.store.size ≤ v.tag → C.store.size ≤ v'.tag)
    (simple : v'.isSimple = v.isSimple) : C.Finished q' v' := by
  obtain ⟨replaced, settled⟩ := Prod.mk.inj same
  unfold Finished
  rw [replaced, settled, simple]
  exact h.imp_right fun added => ⟨new added.1, added.2⟩

theorem SameFlags.finished {ids : List Nat} {v : Tree Nat Name} (h : SameFlags ids q q')
    (bound : v.tag < q.store.size) (outside : v.tag ∉ ids) (done : C.Finished q v) :
    C.Finished q' v := by
  obtain ⟨replaced, settled⟩ := h v.tag bound outside
  exact done.of_marks (Prod.ext replaced settled) id rfl

variable [Naming τ] {names : τ}

abbrev LowersTo (C : Setup) (names : τ) (q : Pass τ) (T T' : Tree Nat Name) : Prop :=
  Tree.Lowers C.library (Naming.spelling names q.names) C.store.size
    (fun x => q.facts.isReplaced (some x)) (fun x => q.scopes.bindingOf (some x)) T T'

/-- The walk over a tree has changed nothing outside it, and left the lowered tree. -/
structure Done (C : Setup) (names : τ) (q q' : Pass τ) (T T' : Tree Nat Name) : Prop where
  grown : q.store.Evolves (· ∈ T.ids) q'.store
  holds : q'.store.Holds T'
  distinct : T'.ids.Nodup
  fresh : ∀ x ∈ T'.ids, x ∈ T.ids ∨ q.store.size ≤ x
  /-- Nothing was added that is not in the lowered tree. -/
  filled : ∀ x, q.store.size ≤ x → x < q'.store.size → x ∈ T'.ids
  lowers : C.LowersTo names q' T T'
  flags : SameFlags T.ids q q'
  references : SameReferences q q'
  later : Naming.Grows q.names q'.names
  /-- If no rule was applied in the tree then nothing happened. -/
  idle : (∀ x ∈ T.ids, q'.facts.isReplaced (some x) = false) → Idle q q'
  /-- Nothing is left to do below the top. -/
  finished : ∀ v ∈ T'.subtrees, v.tag ≠ T.tag → C.Finished q' v

structure ForestDone (C : Setup) (names : τ) (q q' : Pass τ) (trees : List (Tree Nat Name))
    (f : Tree Nat Name → Tree Nat Name) : Prop where
  grown : q.store.Evolves (· ∈ trees.flatMap Tree.ids) q'.store
  holds : ∀ c ∈ trees, q'.store.Holds (f c)
  distinct : (trees.flatMap fun c => (f c).ids).Nodup
  fresh : ∀ c ∈ trees, ∀ x ∈ (f c).ids, x ∈ c.ids ∨ q.store.size ≤ x
  filled : ∀ x, q.store.size ≤ x → x < q'.store.size → x ∈ trees.flatMap fun c => (f c).ids
  lowers : ∀ c ∈ trees, C.LowersTo names q' c (f c)
  flags : SameFlags (trees.flatMap Tree.ids) q q'
  references : SameReferences q q'
  later : Naming.Grows q.names q'.names
  idle : (∀ x ∈ trees.flatMap Tree.ids, q'.facts.isReplaced (some x) = false) → Idle q q'
  finished : ∀ c ∈ trees, ∀ v ∈ (f c).subtrees, C.Finished q' v

def WalksFrom (C : Setup) (names : τ) (fuel : Nat) (q : Pass τ) (P : Plan) (enclosing : Slot)
    (T : Tree Nat Name) : Prop :=
  ∃ q' T', C.Runs (fun judge => (C.engine judge).lowerWithin fuel enclosing T.tag) q () q' ∧
    C.Progress names q' (C.policy.plan (T.tour enclosing) P) ∧ C.Done names q q' T T' ∧
    q'.facts.isSettled (some T.tag) = true

/-- A tree can be walked over from every state that follows a plan, if it is ready. -/
def Walks (C : Setup) (names : τ) (fuel : Nat) (T : Tree Nat Name) : Prop :=
  ∀ q P enclosing, C.Progress names q P → C.Ready q P T → C.WalksFrom names fuel q P enclosing T

/-! ## Several trees -/

theorem ForestDone.nil (q : Pass τ) : C.ForestDone names q q [] id where
  grown := .refl _
  holds := by simp
  distinct := by simp
  fresh := by simp
  filled := fun x new bound => absurd bound (Nat.not_lt.mpr new)
  lowers := by simp
  flags := fun _ _ _ => ⟨rfl, rfl⟩
  references := fun _ _ => rfl
  later := .refl
  idle := fun _ => .refl q
  finished := by simp

theorem ForestDone.mem_or_new {trees : List (Tree Nat Name)} {f : Tree Nat Name → Tree Nat Name}
    (h : C.ForestDone names q q' trees f) {x : Nat} (mem : x ∈ trees.flatMap fun c => (f c).ids) :
    x ∈ trees.flatMap Tree.ids ∨ q.store.size ≤ x := by
  obtain ⟨c, listed, inside⟩ := List.mem_flatMap.mp mem
  exact (h.fresh c listed x inside).imp_left fun here => List.mem_flatMap.mpr ⟨c, listed, here⟩

/-- What is walked over first leaves the rest ready. -/
theorem Ready.after (h : C.Ready q P T) {c c' : Tree Nat Name} (done : C.Done names q q₁ c c')
    (apart : ∀ x ∈ T.ids, x ∉ c.ids) : C.Ready q₁ (C.policy.plan (c.tour enclosing) P) T where
  below := h.below
  holds := h.holds.evolve done.grown apart
  untouched x inside := by
    obtain ⟨replaced, settled⟩ := done.flags x (h.holds.lt_size inside) (apart x inside)
    exact ⟨replaced.trans (h.untouched x inside).1, settled.trans (h.untouched x inside).2⟩
  waiting x inside pending := by
    rcases C.policy.mem_pending_plan pending with before | ⟨v, visited, rfl, -⟩
    · exact h.waiting x inside before
    · exact apart _ inside (List.mem_map_of_mem (Tree.mem_subtrees_of_tour visited))

theorem ForestDone.cons {c c' : Tree Nat Name} {rest : List (Tree Nat Name)}
    {f : Tree Nat Name → Tree Nat Name} (first : C.Done names q q₁ c c')
    (settled : q₁.facts.isSettled (some c.tag) = true)
    (second : C.ForestDone names q₁ q' rest f) (holds : ∀ d ∈ c :: rest, q.store.Holds d)
    (distinct : ((c :: rest).flatMap Tree.ids).Nodup) :
    C.ForestDone names q q' (c :: rest) fun d => if d.tag = c.tag then c' else f d := by
  rw [List.flatMap_cons, List.nodup_append] at distinct
  have size := first.grown.size_le
  have apart {x : Nat} (inside : x ∈ c.ids) : x ∉ rest.flatMap Tree.ids := fun other =>
    distinct.2.2 x inside x other rfl
  have old {x : Nat} (inside : x ∈ rest.flatMap Tree.ids) : x < q.store.size := by
    obtain ⟨d, mem, inside⟩ := List.mem_flatMap.mp inside
    exact (holds d (List.mem_cons_of_mem c mem)).lt_size inside
  have inside {x : Nat} (mem : x ∈ c.ids) : x < q.store.size := (holds c List.mem_cons_self).lt_size mem
  have other {d : Tree Nat Name} (mem : d ∈ rest) : d.tag ≠ c.tag := fun same =>
    apart c.tag_mem_ids (same ▸ List.mem_flatMap.mpr ⟨d, mem, d.tag_mem_ids⟩)
  have spared {x : Nat} (mem : x ∈ c'.ids) : x ∉ rest.flatMap Tree.ids := by
    intro later
    rcases first.fresh x mem with here | new
    · exact apart here later
    · exact Nat.lt_irrefl _ (Nat.lt_of_lt_of_le (old later) new)
  have others : (rest.flatMap fun d => (if d.tag = c.tag then c' else f d).ids) =
      rest.flatMap fun d => (f d).ids := by
    refine List.flatMap_congr fun d mem => ?_
    rw [if_neg (other mem)]
  -- What is told of every tree is told of the first and of the rest.
  have every {Q : Tree Nat Name → Tree Nat Name → Prop} (top : Q c c') (below : ∀ d ∈ rest, Q d (f d)) :
      ∀ d ∈ c :: rest, Q d (if d.tag = c.tag then c' else f d) := by
    intro d mem
    rcases List.mem_cons.mp mem with rfl | mem
    · rw [if_pos rfl]
      exact top
    · rw [if_neg (other mem)]
      exact below d mem
  have fresh : ∀ d ∈ rest, ∀ x ∈ (f d).ids, x ∈ d.ids ∨ q.store.size ≤ x := fun d mem x here =>
    (second.fresh d mem x here).imp_right (Nat.le_trans size)
  refine ⟨?_, every ?_ second.holds, ?_,
    every (Q := fun d T => ∀ x ∈ T.ids, x ∈ d.ids ∨ q.store.size ≤ x) first.fresh fresh,
    fun x new bound => ?_, every ?_ second.lowers, fun x bound outside => ?_, fun x bound => ?_, ?_,
    fun none => ?_,
    every (Q := fun _ T => ∀ v ∈ T.subtrees, C.Finished q' v) (fun v below => ?_) second.finished⟩
  · refine (first.grown.mono fun x _ mem => ?_).trans (second.grown.mono fun x _ mem => ?_)
    · exact List.mem_append_left _ mem
    · exact List.mem_append_right _ mem
  · exact first.holds.evolve second.grown fun x mem => spared mem
  · rw [List.flatMap_cons, if_pos rfl, others]
    refine List.nodup_append.mpr ⟨first.distinct, second.distinct, ?_⟩
    rintro x mem _ later rfl
    rcases second.mem_or_new later with original | new
    · exact spared mem original
    · exact Nat.lt_irrefl _ (Nat.lt_of_lt_of_le (first.holds.lt_size mem) new)
  · rw [List.flatMap_cons, if_pos rfl, others]
    by_cases early : x < q₁.store.size
    · exact List.mem_append_left _ (first.filled x new early)
    · exact List.mem_append_right _ (second.filled x (Nat.le_of_not_lt early) bound)
  · exact first.lowers.mono second.later.spelling (fun x mem =>
      (second.flags x (Nat.lt_of_lt_of_le (inside mem) size) (apart mem)).1) fun x mem =>
        second.references x (first.holds.lt_size mem)
  · rw [List.flatMap_cons, List.mem_append, not_or] at outside
    obtain ⟨replaced₁, settled₁⟩ := first.flags x bound outside.1
    obtain ⟨replaced₂, settled₂⟩ := second.flags x (Nat.lt_of_lt_of_le bound size) outside.2
    exact ⟨replaced₂.trans replaced₁, settled₂.trans settled₁⟩
  · exact (second.references x (Nat.lt_of_lt_of_le bound size)).trans (first.references x bound)
  · exact first.later.trans second.later
  · rw [List.flatMap_cons] at none
    refine (first.idle fun x mem => ?_).trans
      (second.idle fun x mem => none x (List.mem_append_right _ mem))
    rw [← (second.flags x (Nat.lt_of_lt_of_le (inside mem) size) (apart mem)).1]
    exact none x (List.mem_append_left _ mem)
  · have own := List.mem_map_of_mem (f := Tree.tag) below
    refine second.flags.finished (first.holds.lt_size own) (spared own) ?_
    by_cases top : v.tag = c.tag
    · exact .inl (top ▸ settled)
    · exact first.finished v below top

/-- Trees that can be walked over one by one can be walked over in a row. -/
theorem walks_forest (enclosing : Slot) (trees : List (Tree Nat Name))
    (walks : ∀ c ∈ trees, C.Walks names fuel c)
    (h : C.Progress names q P) (ready : ∀ c ∈ trees, C.Ready q P c)
    (distinct : (trees.flatMap Tree.ids).Nodup) :
    ∃ q' f, C.Runs (fun judge =>
        (trees.map Tree.tag).forM ((C.engine judge).lowerWithin fuel enclosing)) q () q' ∧
      C.Progress names q' (C.policy.plan (trees.flatMap (Tree.tour · enclosing)) P) ∧
      C.ForestDone names q q' trees f := by
  induction trees generalizing q P with
  | nil => exact ⟨q, id, .forM_nil _, h, .nil q⟩
  | cons c rest ih =>
    obtain ⟨q₁, c', run₁, h₁, done₁, settled₁⟩ :=
      walks c List.mem_cons_self q P enclosing h (ready c List.mem_cons_self)
    have parts := List.nodup_append.mp (List.flatMap_cons ▸ distinct)
    have still : ∀ d ∈ rest, C.Ready q₁ (C.policy.plan (c.tour enclosing) P) d := fun d mem =>
      (ready d (List.mem_cons_of_mem c mem)).after done₁ fun x inside here =>
        parts.2.2 x here x (List.mem_flatMap.mpr ⟨d, mem, inside⟩) rfl
    obtain ⟨q', f, run, h', done⟩ :=
      ih (fun d mem => walks d (List.mem_cons_of_mem c mem)) h₁ still parts.2.1
    refine ⟨q', _, .forM_cons run₁ run, ?_,
      .cons done₁ settled₁ done (fun d mem => (ready d mem).holds) distinct⟩
    rw [List.flatMap_cons, Policy.plan_append]
    exact h'

/-! ## A tree whose top was kept -/

theorem Done.settle (h : C.Done names q q' T T') :
    C.Done names q { q' with facts := q'.facts.markSettled (some T.tag) } T T' ∧
      (q'.facts.markSettled (some T.tag)).isSettled (some T.tag) = true := by
  refine ⟨⟨h.grown, h.holds, h.distinct, h.fresh, h.filled, ?_, fun x bound outside => ?_,
    h.references, h.later, fun none => ?_, fun v below other => ?_⟩, by simp⟩
  · exact h.lowers.mono (.refl _) (fun x _ => q'.facts.isReplaced_markSettled T.tag (some x))
      fun _ _ => rfl
  · have other : x ≠ T.tag := fun same => outside (same ▸ T.tag_mem_ids)
    obtain ⟨replaced, settled⟩ := h.flags x bound outside
    simp [replaced, settled, beq_false_of_ne other]
  · exact (h.idle fun x mem => by simpa using none x mem).trans (.settle q' T.tag)
  · refine (h.finished v below other).of_marks ?_ id rfl
    simp [marks, beq_false_of_ne other]

theorem ForestDone.keep {f : Tree Nat Name → Tree Nat Name}
    (h : C.ForestDone names q q₁ T.children f) (holds : q.store.Holds T) (distinct : T.ids.Nodup)
    (sameStore : q'.store = q₁.store) (sameNames : q'.names = q₁.names)
    (sameScopes : q'.scopes = q₁.scopes)
    (flags : ∀ x, x ≠ T.tag → q'.facts.isReplaced (some x) = q₁.facts.isReplaced (some x) ∧
      q'.facts.isSettled (some x) = q₁.facts.isSettled (some x))
    (literal : ∀ digits, T.kind ≠ .bigInt digits)
    (call : T.isConstructorCall C.library.constructor = false)
    (own : q'.facts.isReplaced (some T.tag) = true → ∃ callee args, T.kind = .call callee args)
    (idle : q'.facts.isReplaced (some T.tag) = false → Idle q₁ q') :
    C.Done names q q' T (T.mapChildren f) := by
  have old : T.tag < q.store.size := holds.lt_size T.tag_mem_ids
  have ids : (T.mapChildren f).ids = T.tag :: T.children.flatMap fun c => (f c).ids := by
    rw [Tree.ids_eq, Tree.tag_mapChildren, Tree.children_mapChildren, List.flatMap_map]
  have outside : T.tag ∉ T.children.flatMap Tree.ids := Tree.tag_not_mem_below distinct
  have other {x : Nat} (mem : x ∈ T.children.flatMap Tree.ids) : x ≠ T.tag := fun same =>
    outside (same ▸ mem)
  refine ⟨?_, ?_, ?_, fun x mem => ?_, fun x new bound => ?_, ?_, fun x bound away => ?_,
    fun x bound => ?_, ?_, fun none => ?_, fun v deep different => ?_⟩
  · rw [sameStore]
    exact h.grown.mono fun x _ => Tree.mem_ids_of_below
  · rw [sameStore]
    refine Store.holds_iff.mpr ⟨?_, fun d child => ?_⟩
    · rw [Tree.tag_mapChildren, Tree.shape_mapChildren fun c child => (h.lowers c child).tag_eq]
      exact h.grown.shape holds.top outside
    · rw [Tree.children_mapChildren] at child
      obtain ⟨c, inside, rfl⟩ := List.mem_map.mp child
      exact h.holds c inside
  · rw [ids]
    refine List.nodup_cons.mpr ⟨fun inside => ?_, h.distinct⟩
    rcases h.mem_or_new inside with here | new
    · exact outside here
    · omega
  · rw [ids] at mem
    rcases List.mem_cons.mp mem with rfl | mem
    · exact .inl T.tag_mem_ids
    · exact (h.mem_or_new mem).imp_left Tree.mem_ids_of_below
  · rw [ids]
    exact List.mem_cons_of_mem _ (h.filled x new (sameStore ▸ bound))
  · exact .keep f literal call own fun c child => (h.lowers c child).mono (sameNames ▸ .refl _)
      (fun x inside => (flags x (other (List.mem_flatMap.mpr ⟨c, child, inside⟩))).1)
      fun x _ => by rw [sameScopes]
  · have other : x ≠ T.tag := fun same => away (same ▸ T.tag_mem_ids)
    obtain ⟨replaced, settled⟩ := h.flags x bound fun inside => away (Tree.mem_ids_of_below inside)
    exact ⟨(flags x other).1.trans replaced, (flags x other).2.trans settled⟩
  · rw [sameScopes]
    exact h.references x bound
  · exact sameNames ▸ h.later
  · refine (h.idle fun x mem => ?_).trans (idle (none _ T.tag_mem_ids))
    rw [← (flags x (other mem)).1]
    exact none x (Tree.mem_ids_of_below mem)
  · rcases Tree.mem_subtrees_iff.mp deep with rfl | ⟨d, child, inside⟩
    · exact (different (Tree.tag_mapChildren ..)).elim
    · rw [Tree.children_mapChildren] at child
      obtain ⟨c, here, rfl⟩ := List.mem_map.mp child
      obtain ⟨replaced, settled⟩ := flags v.tag different
      exact (h.finished c here v inside).of_marks (Prod.ext replaced settled) id rfl

/-! ## Nodes at which nothing is done -/

theorem Runs.enter_idle (fresh : Untouched q T.tag) (holds : q.store.Holds T)
    (literal : ∀ digits, T.kind ≠ .bigInt digits) (call : ∀ callee args, T.kind ≠ .call callee args)
    (idle : T.kind.judged = []) :
    C.Runs (fun judge => (C.engine judge).enter enclosing T.tag) q .below q := by
  obtain ⟨range, span, found, -⟩ := Store.shape_tree_iff.mp holds.top
  refine .enter fresh found (.enterNode_idle (fun digits => ?_) (fun callee args => ?_) ?_)
  · cases kind : T.kind <;> simp_all [Kind.map]
  · cases kind : T.kind <;> simp_all [Kind.map]
  · rw [Kind.judged_map, idle]
    rfl

theorem Runs.leave_idle (holds : q.store.Holds T) (call : ∀ callee args, T.kind ≠ .call callee args) :
    C.Runs (fun judge => (C.engine judge).leave enclosing T.tag) q () q := by
  obtain ⟨range, span, found, -⟩ := Store.shape_tree_iff.mp holds.top
  refine .leave_other (Store.kind_of_node? found) fun callee args => ?_
  cases kind : T.kind <;> simp_all [Kind.map]

theorem runs_member (fuel : Nat) (enclosing : Slot) {property : Name} {o m : Nat}
    (h : C.Progress names q P)
    (holds : q.store.Holds (Tree.libraryMember C.library.library property o m))
    (object : Untouched q o) (member : Untouched q m) :
    ∃ f, C.Runs (fun judge => (C.engine judge).lowerWithin (fuel + 2) enclosing m) q ()
        { q with facts := f } ∧ C.Progress names { q with facts := f } P ∧
      ∀ x, f.isReplaced (some x) = q.facts.isReplaced (some x) ∧
        (x ≠ o → x ≠ m → f.isSettled (some x) = q.facts.isSettled (some x)) := by
  let inner : Tree Nat Name := .node o (.ident C.library.library)
  let outer : Tree Nat Name := Tree.libraryMember C.library.library property o m
  have below : q.store.Holds inner := holds.child (Tree.child_of_object rfl)
  have old : o < q.store.size := below.lt_size inner.tag_mem_ids
  have old' : m < q.store.size := holds.lt_size outer.tag_mem_ids
  let q₁ : Pass τ := { q with facts := q.facts.markSettled (some o) }
  have first : C.Runs (fun judge => (C.engine judge).lowerWithin (fuel + 1) enclosing o) q () q₁ :=
    .lowerWithin_below old (.enter_idle (T := inner) object below nofun nofun rfl)
      (.descend (T := inner) below (.forM_nil _)) (.leave_idle (T := inner) below nofun)
  have second : C.Runs (fun judge =>
      Engine.descend ((C.engine judge).lowerWithin (fuel + 1)) enclosing m) q () q₁ :=
    .descend (T := outer) holds (.forM_cons first (.forM_nil _))
  refine ⟨q₁.facts.markSettled (some m), ?_, (h.settle old).settle old', fun x => ⟨?_, ?_⟩⟩
  · exact .lowerWithin_below old' (.enter_idle (T := outer) member holds nofun nofun rfl) second
      (.leave_idle (T := outer) holds nofun)
  · simp [q₁]
  · intro other other'
    simp [q₁, beq_false_of_ne other, beq_false_of_ne other']

end Setup

end BigLower
