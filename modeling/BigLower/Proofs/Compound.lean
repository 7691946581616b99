import BigLower.Proofs.Rules

/-! # Compound assignments

A compound assignment is lowered when it is left. Its target is copied first, so
that the copy can be an argument of the library's method and the target stays.
-/

namespace BigLower

/-! ## What a copy gets -/

namespace Facts

def afterCopy (f : Facts) (pairs : List (Nat × Nat)) : Facts :=
  pairs.foldl (fun f pair => f.copyFlags (some pair.1) (some pair.2)) f

variable {pairs : List (Nat × Nat)} {x : Nat}

theorem flags_afterCopy (f : Facts) (other : ∀ pair ∈ pairs, x ≠ pair.2) :
    (f.afterCopy pairs).isReplaced (some x) = f.isReplaced (some x) ∧
      (f.afterCopy pairs).isSettled (some x) = f.isSettled (some x) ∧
        (f.afterCopy pairs).isTainted (some x) = f.isTainted (some x) := by
  induction pairs generalizing f with
  | nil => exact ⟨rfl, rfl, rfl⟩
  | cons pair rest ih =>
    have here : x ≠ pair.2 := other pair List.mem_cons_self
    have later := ih (f.copyFlags (some pair.1) (some pair.2)) fun p mem =>
      other p (List.mem_cons_of_mem pair mem)
    unfold afterCopy at later ⊢
    rw [List.foldl_cons, later.1, later.2.1, later.2.2]
    simp [here]

theorem isBindingTainted_afterCopy (f : Facts) (b : Nat) :
    (f.afterCopy pairs).isBindingTainted b = f.isBindingTainted b := by
  induction pairs generalizing f with
  | nil => rfl
  | cons pair rest ih =>
    unfold afterCopy at ih ⊢
    rw [List.foldl_cons, ih]
    simp [isBindingTainted]

theorem flags_copy (f : Facts) (once : (pairs.map Prod.snd).Nodup)
    (apart : ∀ old ∈ pairs, ∀ new ∈ pairs, old.1 ≠ new.2)
    (blank : ∀ pair ∈ pairs, f.isReplaced (some pair.2) = false ∧ f.isSettled (some pair.2) = false) :
    ∀ pair ∈ pairs, (f.afterCopy pairs).isReplaced (some pair.2) = f.isReplaced (some pair.1) ∧
      (f.afterCopy pairs).isSettled (some pair.2) = f.isSettled (some pair.1) := by
  induction pairs generalizing f with
  | nil => simp
  | cons first rest ih =>
    rw [List.map_cons, List.nodup_cons] at once
    have later : ∀ pair ∈ rest, pair.2 ≠ first.2 := fun pair mem same =>
      once.1 (same ▸ List.mem_map_of_mem mem)
    intro pair mem
    show ((f.copyFlags (some first.1) (some first.2)).afterCopy rest).isReplaced _ = _ ∧
      ((f.copyFlags (some first.1) (some first.2)).afterCopy rest).isSettled _ = _
    rcases List.mem_cons.mp mem with rfl | mem
    · obtain ⟨replaced, settled, -⟩ := flags_afterCopy (f.copyFlags (some pair.1) (some pair.2))
        fun other here => (later other here).symm
      obtain ⟨fresh, fresh'⟩ := blank pair List.mem_cons_self
      simp [replaced, settled, fresh, fresh']
    · have old : pair.1 ≠ first.2 :=
        apart pair (List.mem_cons_of_mem _ mem) first List.mem_cons_self
      obtain ⟨replaced, settled⟩ := ih (f.copyFlags (some first.1) (some first.2)) once.2
        (fun old here new there => apart old (List.mem_cons_of_mem _ here) new
          (List.mem_cons_of_mem _ there))
        (fun other here => by simpa [later other here] using blank other (List.mem_cons_of_mem _ here))
        pair mem
      simp [replaced, settled, old]

end Facts

namespace Scopes

def afterCopy (t : Scopes) (pairs : List (Nat × Nat)) : Scopes :=
  pairs.foldl (fun t pair => t.copyReference (some pair.2) (some pair.1)) t

variable {pairs : List (Nat × Nat)} {x : Nat}

theorem bindingOf_copyReference (t : Scopes) {copy source slot : Slot} (other : slot ≠ copy) :
    (t.copyReference copy source).bindingOf slot = t.bindingOf slot := by
  unfold copyReference
  split
  · simp [bindingOf, Std.TreeMap.getElem?_insert, Ne.symm other]
  · rfl

theorem bindingOf_afterCopy (t : Scopes) (other : ∀ pair ∈ pairs, x ≠ pair.2) :
    (t.afterCopy pairs).bindingOf (some x) = t.bindingOf (some x) := by
  induction pairs generalizing t with
  | nil => rfl
  | cons pair rest ih =>
    have here : some x ≠ some pair.2 := fun same =>
      other pair List.mem_cons_self (Option.some.inj same)
    unfold afterCopy at ih ⊢
    rw [List.foldl_cons, ih _ fun p mem => other p (List.mem_cons_of_mem pair mem),
      bindingOf_copyReference t here]

theorem bindingOf_copy (t : Scopes) (once : (pairs.map Prod.snd).Nodup)
    (apart : ∀ old ∈ pairs, ∀ new ∈ pairs, old.1 ≠ new.2)
    (blank : ∀ pair ∈ pairs, t.bindingOf (some pair.2) = none) :
    ∀ pair ∈ pairs, (t.afterCopy pairs).bindingOf (some pair.2) = t.bindingOf (some pair.1) := by
  induction pairs generalizing t with
  | nil => simp
  | cons first rest ih =>
    rw [List.map_cons, List.nodup_cons] at once
    have later : ∀ pair ∈ rest, pair.2 ≠ first.2 := fun pair mem same =>
      once.1 (same ▸ List.mem_map_of_mem mem)
    intro pair mem
    show ((t.copyReference (some first.2) (some first.1)).afterCopy rest).bindingOf _ = _
    rcases List.mem_cons.mp mem with rfl | mem
    · rw [bindingOf_afterCopy _ fun other here => (later other here).symm]
      have none := blank pair List.mem_cons_self
      unfold copyReference
      split
      · next binding found => rw [found, bindingOf, Std.TreeMap.getElem?_insert_self]
      · next unknown => rw [unknown, none]
    · have old : some pair.1 ≠ some first.2 := fun same =>
        apart pair (List.mem_cons_of_mem _ mem) first List.mem_cons_self (Option.some.inj same)
      rw [ih _ once.2 (fun old here new there => apart old (List.mem_cons_of_mem _ here) new
        (List.mem_cons_of_mem _ there)) (fun other here => ?_) pair mem,
        bindingOf_copyReference t old]
      rw [bindingOf_copyReference t fun same => later other here (Option.some.inj same)]
      exact blank other (List.mem_cons_of_mem _ here)

theorem declaredBy_afterCopy (t : Scopes) (slot : Slot) :
    (t.afterCopy pairs).declaredBy slot = t.declaredBy slot := by
  induction pairs generalizing t with
  | nil => rfl
  | cons pair rest ih =>
    unfold afterCopy at ih ⊢
    rw [List.foldl_cons, ih]
    unfold copyReference
    split <;> rfl

end Scopes

namespace Store

/-- A node stores the result of a new library call; the nodes behind the old ones are for it. -/
structure BecomesAssign (s s' : Store) (library : Name) (x : Nat) (property : Name) (target : Slot)
    (args : List Slot) : Prop where
  grown : s.Evolves (· = x) s'
  object : s'.kind (some s.size) = .ok (.ident library)
  callee : s'.kind (some (s.size + 1)) = .ok (.member (some s.size) property)
  call : ∃ range, s'.kind (some (s.size + 2)) = .ok (.call (some (s.size + 1)) range) ∧
    s'.list range = .ok args
  assign : s'.kind (some x) = .ok (.assign .plain target (some (s.size + 2)))

/-- The stores on the way from a compound assignment to the plain one. -/
theorem becomesAssign (s : Store) (library property : Name) (span : Span) {x : Nat}
    (old : x < s.size) (target : Slot) (args : List Slot) :
    ∃ range s₁ s', (s.withMember library property span).append args = (range, s₁) ∧
      s₁.size = s.size + 2 ∧
      (s₁.push (.call (some (s.size + 1)) range) span).replace (some x)
        (.assign .plain target (some (s.size + 2))) = .ok s' ∧
      s.Evolves (fun _ => False) (s₁.push (.call (some (s.size + 1)) range) span) ∧
      s.BecomesAssign s' library x property target args := by
  obtain ⟨range, s₁, stored⟩ := (s.withMember library property span).exists_append args
  have size₁ : s₁.size = s.size + 2 := by
    rw [size_append stored, size_withMember]
  let s₂ := s₁.push (.call (some (s.size + 1)) range) span
  have listed : (s.withMember library property span).Evolves (fun _ => False) s₂ :=
    (evolves_append stored).trans (evolves_push s₁ _ span)
  have grown : s.Evolves (fun _ => False) s₂ := (evolves_withMember ..).trans listed
  obtain ⟨s', replaced, own⟩ := replace_of_lt (Nat.lt_of_lt_of_le old grown.size_le)
    (.assign .plain target (some (s.size + 2)))
  have moved := evolves_replace replaced
  have call : s₂.kind (some (s.size + 2)) = .ok (.call (some (s.size + 1)) range) := by
    rw [← size₁]
    exact kind_of_node? (node?_push_self s₁ _ span)
  have list : s₂.list range = .ok args := by
    rw [list_congr (lists_push s₁ _ span)]
    exact list_append stored
  refine ⟨range, s₁, s', stored, size₁, replaced, grown, ⟨?_, ?_, ?_, ?_, own⟩⟩
  · exact (grown.mono fun _ _ => False.elim).trans moved
  · exact moved.kind (listed.kind (kind_withMember_object s library property span) id) (by omega)
  · exact moved.kind (listed.kind (kind_withMember_callee s library property span) id) (by omega)
  · exact ⟨range, moved.kind call (by omega), moved.list list⟩

end Store

/-- An assignment that stores the result of a library call with a copy of its target. -/
def Tree.loweredAssign (x : Nat) (library property : Name) (o m call : Nat)
    (target copy value : Part Nat Name) : Tree Nat Name :=
  .node x (.assign .plain target (some (.node call
    (.call (some (libraryMember library property o m)) [copy, value]))))

theorem Tree.children_loweredAssign {x : Nat} {library property : Name} {o m call : Nat}
    {target copy value : Part Nat Name} :
    (loweredAssign x library property o m call target copy value).children = target.toList ++
      [.node call (.call (some (libraryMember library property o m)) [copy, value])] := by
  unfold loweredAssign
  rw [children_of_assign rfl]
  rfl

theorem Tree.ids_loweredAssign (x : Nat) (library property : Name) (o m call : Nat)
    (target copy value : Part Nat Name) :
    (loweredAssign x library property o m call target copy value).ids.Perm
      (x :: ((target.toList ++ value.toList).flatMap ids ++
        ([o, m, call] ++ copy.toList.flatMap ids))) := by
  have inner : (Tree.node call (.call (some (libraryMember library property o m))
      [copy, value])).ids = call :: m :: o :: (copy.toList ++ value.toList).flatMap ids := by
    rw [ids_of_call rfl, ids_libraryMember]
    cases copy <;> cases value <;> rfl
  rw [ids_eq, children_loweredAssign, List.flatMap_append, List.flatMap_singleton, inner,
    List.flatMap_append, List.flatMap_append, List.append_assoc]
  refine List.Perm.cons x (List.Perm.append_left _ ?_)
  have turned : (call :: m :: o :: (copy.toList.flatMap ids ++ value.toList.flatMap ids)).Perm
      ([o, m, call] ++ copy.toList.flatMap ids ++ value.toList.flatMap ids) :=
    (List.reverse_perm [o, m, call]).append_right _
  exact turned.trans List.perm_append_comm

section Parts

variable {x : Nat} {library property : Name} {o m call : Nat} {target copy value : Tree.Part Nat Name}
  {f : Tree Nat Name → Tree Nat Name}

theorem Tree.ids_loweredAssign_map :
    (loweredAssign x library property o m call (target.map f) copy (value.map f)).ids.Perm
      (x :: ((target.toList ++ value.toList).flatMap (fun c => (f c).ids) ++
        ([o, m, call] ++ copy.toList.flatMap ids))) := by
  have parts : ((target.map f).toList ++ (value.map f).toList).flatMap ids =
      (target.toList ++ value.toList).flatMap fun c => (f c).ids := by
    cases target <;> cases value <;> rfl
  rw [← parts]
  exact ids_loweredAssign ..

theorem Tree.mem_subtrees_loweredAssign {c : Tree Nat Name}
    (mem : c ∈ target.toList ++ value.toList) :
    f c ∈
      (loweredAssign x library property o m call (target.map f) copy (value.map f)).subtrees := by
  rcases List.mem_append.mp mem with mem | mem
  · have part : target = some c := Option.mem_toList.mp mem
    subst part
    exact child_mem_subtrees (child_of_assign rfl List.mem_cons_self)
  · have part : value = some c := Option.mem_toList.mp mem
    subst part
    refine mem_subtrees_of_child (child_of_assign rfl
      (List.mem_cons_of_mem _ List.mem_cons_self)) (child_mem_subtrees ?_)
    exact child_of_arg rfl (List.mem_cons_of_mem _ List.mem_cons_self)

end Parts

namespace Setup

variable {τ : Type} {C : Setup} {q : Pass τ}

theorem Faithful.afterCopy {judge : Judge} {Agrees : Facts → Facts → Prop}
    (faithful : C.Faithful judge Agrees) {pairs : List (Nat × Nat)}
    (fresh : ∀ pair ∈ pairs, pair.2 ∉ C.tree.ids) {f g : Facts} (agrees : Agrees f g) :
    Agrees (f.afterCopy pairs) (g.afterCopy pairs) := by
  induction pairs generalizing f g with
  | nil => exact agrees
  | cons pair rest ih =>
    have first := faithful.copied agrees pair.1 pair.2 (fresh pair List.mem_cons_self)
    exact ih (fun p mem => fresh p (List.mem_cons_of_mem pair mem)) first

def afterCopy (q : Pass τ) (s' : Store) (pairs : List (Nat × Nat)) : Pass τ :=
  { q with
    store := s'
    scopes := q.scopes.afterCopy pairs
    facts := q.facts.afterCopy pairs }

theorem Runs.copy {slot : Slot} {copied : Store.Copied} {s' : Store}
    (attains : Attains (q.store.deepCopy slot) (copied, s') q.store s')
    (fresh : ∀ pair ∈ copied.pairs, pair.2 ∉ C.tree.ids) :
    C.Runs (fun _ => PassM.copy slot) q copied.root (afterCopy q s' copied.pairs) :=
  of_attains attains
    (fun run _ _ faithful _ agrees => ⟨_, bind_of_eq run, faithful.afterCopy fresh agrees⟩)
    fun ends _ => bind_of_error ends

/-! ## The rule -/

def SameReferences (q q' : Pass τ) : Prop :=
  ∀ x, x < q.store.size → q'.scopes.bindingOf (some x) = q.scopes.bindingOf (some x)

theorem SameReferences.of_eq {q' : Pass τ} (same : q'.scopes = q.scopes) : SameReferences q q' :=
  fun x _ => by rw [same]

structure Extends (q q' : Pass τ) : Prop where
  grown : q.store.Evolves (fun _ => False) q'.store
  replaced : ∀ x, x < q.store.size → q'.facts.isReplaced (some x) = q.facts.isReplaced (some x)
  settled : ∀ x, x < q.store.size → q'.facts.isSettled (some x) = q.facts.isSettled (some x)
  references : SameReferences q q'

abbrev refers (q : Pass τ) (x : Nat) : Option Nat := q.scopes.bindingOf (some x)

abbrev marks (q : Pass τ) (x : Nat) : Bool × Bool :=
  (q.facts.isReplaced (some x), q.facts.isSettled (some x))

variable [Naming τ] {names : τ} {P : Plan}

/-- What a copy does to the nodes of its source and to those it adds is all that it does. -/
theorem Progress.afterCopy (h : C.Progress names q P) {part copy : Tree.Part Nat Name} {s' : Store}
    {pairs : List (Nat × Nat)} (duplicate : q.store.Duplicate s' part copy pairs) :
    C.Progress names (afterCopy q s' pairs) P := by
  have old {x : Nat} (bound : x < q.store.size) : ∀ pair ∈ pairs, x ≠ pair.2 := by
    intro pair mem same
    have := (duplicate.new_bounds mem).1
    omega
  have beyond {x : Nat} (outside : s'.size ≤ x) : ∀ pair ∈ pairs, x ≠ pair.2 := by
    intro pair mem same
    have := (duplicate.new_bounds mem).2
    omega
  refine h.extend duplicate.grown .refl (fun x bound => ?_) (fun x bound => ?_) (fun b => ?_)
    (fun x bound => ?_) (fun x outside => ?_) (fun slot => ?_) (fun x outside => ?_) rfl
  · exact (q.facts.flags_afterCopy (old bound)).1
  · exact (q.facts.flags_afterCopy (old bound)).2.2
  · exact q.facts.isBindingTainted_afterCopy b
  · exact q.scopes.bindingOf_afterCopy (old bound)
  · exact (q.scopes.bindingOf_afterCopy (beyond outside)).trans
      (h.unreferenced x (Nat.le_trans duplicate.grown.size_le outside))
  · exact q.scopes.declaredBy_afterCopy slot
  · obtain ⟨replaced, settled, -⟩ := q.facts.flags_afterCopy (beyond outside)
    have blank := h.blank x (Nat.le_trans duplicate.grown.size_le outside)
    exact ⟨replaced.trans blank.1, settled.trans blank.2⟩

/-- A part has been copied: the copy is new and whole, and marked and referring as its source. -/
structure PartCopied (q q' : Pass τ) (part copy : Tree.Part Nat Name) : Prop where
  extended : Extends q q'
  sameNames : q'.names = q.names
  refers : copy.map (Tree.relabel (refers q')) = part.map (Tree.relabel (refers q'))
  marks : copy.map (Tree.relabel (marks q')) = part.map (Tree.relabel (marks q'))
  holds : ∀ D ∈ copy, q'.store.Holds D
  distinct : ∀ D ∈ copy, D.ids.Nodup
  fresh : ∀ D ∈ copy, ∀ x ∈ D.ids, q.store.size ≤ x
  filled : ∀ x, q.store.size ≤ x → x < q'.store.size → x ∈ copy.toList.flatMap Tree.ids

theorem Progress.partCopied (h : C.Progress names q P) {part copy : Tree.Part Nat Name} {s' : Store}
    {pairs : List (Nat × Nat)} (duplicate : q.store.Duplicate s' part copy pairs)
    (holds : ∀ D ∈ part, q.store.Holds D) : PartCopied q (Setup.afterCopy q s' pairs) part copy := by
  have old {x : Nat} (bound : x < q.store.size) : ∀ pair ∈ pairs, x ≠ pair.2 := by
    intro pair mem same
    have := (duplicate.new_bounds mem).1
    omega
  have apart : ∀ old ∈ pairs, ∀ new ∈ pairs, old.1 ≠ new.2 := fun pair mem =>
    old (duplicate.old_lt holds mem)
  constructor
  case extended =>
    exact ⟨duplicate.grown, fun x bound => (q.facts.flags_afterCopy (old bound)).1,
      fun x bound => (q.facts.flags_afterCopy (old bound)).2.1,
      fun x bound => q.scopes.bindingOf_afterCopy (old bound)⟩
  case sameNames => rfl
  case refers =>
    refine duplicate.relabel fun pair mem => ?_
    have blank : ∀ pair ∈ pairs, q.scopes.bindingOf (some pair.2) = none := fun pair mem =>
      h.unreferenced pair.2 (duplicate.new_bounds mem).1
    show (q.scopes.afterCopy pairs).bindingOf _ = (q.scopes.afterCopy pairs).bindingOf _
    rw [q.scopes.bindingOf_copy duplicate.nodup_news apart blank pair mem,
      q.scopes.bindingOf_afterCopy (old (duplicate.old_lt holds mem))]
  case marks =>
    refine duplicate.relabel fun pair mem => ?_
    obtain ⟨replaced, settled⟩ := q.facts.flags_copy duplicate.nodup_news apart
      (fun pair mem => h.blank pair.2 (duplicate.new_bounds mem).1) pair mem
    obtain ⟨replaced', settled', -⟩ := q.facts.flags_afterCopy (old (duplicate.old_lt holds mem))
    exact Prod.ext (replaced.trans replaced'.symm) (settled.trans settled'.symm)
  case holds => exact duplicate.holds
  case distinct => exact duplicate.distinct
  case fresh => exact fun D mem x inside => (duplicate.fresh D mem x inside).1
  case filled => exact fun x new bound => duplicate.filled new bound

theorem runs_copy (h : C.Progress names q P) {part : Tree.Part Nat Name}
    (holds : ∀ D ∈ part, q.store.Holds D) (fit : ∀ D ∈ part, D.ListsFit) :
    ∃ (copy : Tree.Part Nat Name) (q₁ : Pass τ),
      C.Runs (fun _ => PassM.copy (part.map Tree.tag)) q (copy.map Tree.tag) q₁ ∧
      C.Progress names q₁ P ∧ PartCopied q q₁ part copy := by
  obtain ⟨copy, pairs, s', duplicate, attains⟩ := Store.deepCopy_eq holds fit
  refine ⟨copy, _, .copy attains fun pair mem inside => ?_, h.afterCopy duplicate,
    h.partCopied duplicate holds⟩
  have := h.lt_size inside
  have := (duplicate.new_bounds mem).1
  omega

structure CompoundLowered (C : Setup) (names : τ) (q q' : Pass τ) (P : Plan) (T : Tree Nat Name)
    (enclosing : Slot) (method : String) (target value : Tree.Part Nat Name) (T' : Tree Nat Name) :
    Prop where
  progress : C.Progress names q' (C.policy.mark P enclosing T.tag)
  grown : q.store.Evolves (· = T.tag) q'.store
  holds : q'.store.Holds T'
  replaced : ∀ x, x < q.store.size →
    q'.facts.isReplaced (some x) = (x == T.tag || q.facts.isReplaced (some x))
  settled : ∀ x, x < q.store.size → q'.facts.isSettled (some x) = q.facts.isSettled (some x)
  references : SameReferences q q'
  later : Naming.Grows q.names q'.names
  shape : ∃ property o m call copy,
    T' = Tree.loweredAssign T.tag C.library.library property o m call target copy value ∧
      Naming.Spells names q'.names method property ∧
      copy.map (Tree.relabel (refers q')) = target.map (Tree.relabel (refers q')) ∧
      copy.map (Tree.relabel (marks q')) = target.map (Tree.relabel (marks q')) ∧
      q'.facts.isReplaced (some call) = true ∧
      ([o, m, call] ++ copy.toList.flatMap Tree.ids).Nodup ∧
      (∀ x ∈ [o, m, call] ++ copy.toList.flatMap Tree.ids, q.store.size ≤ x) ∧
      ∀ x, q.store.size ≤ x → x < q'.store.size → x ∈ [o, m, call] ++ copy.toList.flatMap Tree.ids

def addCall (q : Pass τ) (s' : Store) (method : String) : Pass τ :=
  { q with
    store := s'
    names := (Naming.intern q.names method).2
    facts := (q.facts.markReplaced (some (q.store.size + 2))).markTainted (some (q.store.size + 2)) }

theorem Progress.addCall (h : C.Progress names q P) (method : String) {s' : Store}
    (grown : q.store.Evolves (fun _ => False) s') (size : s'.size = q.store.size + 3) :
    C.Progress names (addCall q s' method) P := by
  refine h.extend grown (.intern .refl method) (fun x bound => ?_) (fun x bound => ?_)
    (fun b => ?_) (fun _ _ => rfl) (fun x outside => h.unreferenced x (by
      have : s'.size ≤ x := outside
      omega)) (fun _ => rfl) (fun x outside => ?_) rfl
  · have other : x ≠ q.store.size + 2 := by omega
    simp [Setup.addCall, Facts.markReplaced, other]
  · have other : x ≠ q.store.size + 2 := by omega
    simp [Setup.addCall, Facts.markReplaced, Facts.isTainted_markTainted, other]
  · simp [Setup.addCall, Facts.markReplaced, Facts.isBindingTainted]
  · have beyond : q.store.size + 3 ≤ x := size ▸ outside
    have other : x ≠ q.store.size + 2 := by omega
    have blank := h.blank x (by omega)
    simp [Setup.addCall, Facts.markReplaced, other, blank]

structure ResultStored (C : Setup) (names : τ) (q q' : Pass τ) (x : Nat) (method : String)
    (target : Slot) (operands : List Slot) (property : Name) : Prop where
  step : q.store.BecomesAssign q'.store C.library.library x property target operands
  size : q'.store.size = q.store.size + 3
  spells : Naming.Spells names q'.names method property
  later : Naming.Grows q.names q'.names
  scopes : q'.scopes = q.scopes
  replaced : ∀ y, y < q.store.size →
    q'.facts.isReplaced (some y) = (y == x || q.facts.isReplaced (some y))
  settled : ∀ y, y < q.store.size → q'.facts.isSettled (some y) = q.facts.isSettled (some y)
  call : q'.facts.isReplaced (some (q.store.size + 2)) = true

theorem runs_storeResult (h : C.Progress names q P) {T : Tree Nat Name}
    (below : T ∈ C.tree.subtrees) {op : AssignOp} {target value : Tree.Part Nat Name}
    (assign : T.kind = .assign op target value) {method : String} (found : op.method? = some method)
    {copy : Slot} (fresh : ∀ x ∈ copy, C.store.size ≤ x)
    (kept : q.facts.isReplaced (some T.tag) = false) (enclosing : Slot) :
    ∃ q' property, C.Runs (fun judge => do
        let span := (← PassM.node (some T.tag)).span
        let callee ← (C.engine judge).libraryMember (← PassM.intern method) span
        let args ← PassM.allocList [copy, value.map Tree.tag]
        let call ← PassM.alloc (.call (some callee) args) span
        PassM.learn fun f => (f.markReplaced (some call)).markTainted (some call)
        PassM.replace (some T.tag) (.assign .plain (target.map Tree.tag) (some call))
        Engine.applied enclosing T.tag .compoundAssign) q () q' ∧
      C.Progress names q' (C.policy.mark P enclosing T.tag) ∧
      C.ResultStored names q q' T.tag method (target.map Tree.tag) [copy, value.map Tree.tag]
        property := by
  have old : T.tag < q.store.nodes.size := h.lt_size (List.mem_map_of_mem below)
  have start := h.grown.size_le
  have node : q.store.node? (some T.tag) = some q.store.nodes[T.tag] :=
    Array.getElem?_eq_getElem old
  let span := q.store.nodes[T.tag].span
  let property := (Naming.intern q.names method).1
  have short : [copy, value.map Tree.tag].length ≤ Store.maxListLength := by
    simp [Store.maxListLength]
  obtain ⟨range, s₁, s', stored, size₁, replaced, grown, step⟩ := q.store.becomesAssign
    C.library.library property span old (target.map Tree.tag) [copy, value.map Tree.tag]
  let s₂ := s₁.push (.call (some (q.store.size + 1)) range) span
  have h₂ : C.Progress names (addCall q s₂ method) P :=
    h.addCall method grown (by rw [Store.size_push, size₁])
  have spells : Naming.Spells names (Naming.intern q.names method).2 method property :=
    ⟨q.names, h.interned, rfl, .refl⟩
  have became : Became C.library C.store
      (Naming.spelling names (Naming.intern q.names method).2) s' T := by
    obtain ⟨range', call, list⟩ := step.call
    exact .compound assign found spells ⟨by omega, _, start, step.object, step.callee⟩ (by omega)
      fresh list call step.assign
  have other {x : Nat} (bound : x < q.store.size) : (x == q.store.size + 2) = false :=
    beq_eq_false_iff_ne.mpr (by omega)
  have own : T.rule? C.library.constructor = some .compoundAssign := by
    rw [Tree.rule?, assign]
    rfl
  refine ⟨Progress.mark (addCall q s₂ method) s' (Naming.intern q.names method).2 enclosing T.tag
    (q.tally.count .compoundAssign), property, ?_,
    h₂.lower below ?_ own (Store.evolves_replace replaced) .refl became,
    ⟨step, ?_, spells, .intern .refl method, rfl, fun x bound => ?_, fun x bound => ?_, ?_⟩⟩
  · refine .bind (.node node) (.bind (.intern method) (.bind (.libraryMember property span) ?_))
    refine .bind (.allocList short stored) (.bind (.alloc _ span) ?_)
    rw [size₁]
    exact .bind (.added _) (.bind (.replace replaced) (.applied enclosing T.tag .compoundAssign))
  · simp [addCall, Facts.markReplaced, kept, other old]
  · show s'.size = _
    rw [Store.size_replace replaced, Store.size_push, size₁]
  · simp [Progress.mark, addCall, Facts.markReplaced, other bound]
  · simp [Progress.mark, addCall, Facts.markReplaced]
  · simp [Progress.mark, addCall, Facts.markReplaced]

section LowerCompound

variable {T : Tree Nat Name} {target value copy : Tree.Part Nat Name} {method : String} {q₁ q' : Pass τ}
  {operands : List Slot} {property : Name}

/-- What a lowered assignment adds is the library call and the copy, and nothing else is added. -/
theorem PartCopied.added (copied : PartCopied q q₁ target copy)
    (stored : C.ResultStored names q₁ q' T.tag method (target.map Tree.tag) operands property) :
    let new := [q₁.store.size, q₁.store.size + 1, q₁.store.size + 2] ++ copy.toList.flatMap Tree.ids
    new.Nodup ∧ (∀ x ∈ new, q.store.size ≤ x) ∧
      ∀ x, q.store.size ≤ x → x < q'.store.size → x ∈ new := by
  have larger := copied.extended.grown.size_le
  have size := stored.size
  refine ⟨?_, fun x inside => ?_, fun x new bound => ?_⟩
  · cases copy with
    | none => simp
    | some D =>
      simp only [Option.toList_some, List.flatMap_singleton]
      refine List.nodup_append.mpr ⟨by simp, copied.distinct D rfl, fun x new y inside same => ?_⟩
      have bound := (copied.holds D rfl).lt_size inside
      simp only [List.mem_cons, List.not_mem_nil, or_false] at new
      omega
  · rcases List.mem_append.mp inside with new | inside
    · simp only [List.mem_cons, List.not_mem_nil, or_false] at new
      omega
    · obtain ⟨D, here, inside⟩ := List.mem_flatMap.mp inside
      exact copied.fresh D (Option.mem_toList.mp here) x inside
  · by_cases early : x < q₁.store.size
    · exact List.mem_append_right _ (copied.filled x new early)
    · refine List.mem_append_left _ ?_
      simp only [List.mem_cons, List.not_mem_nil, or_false]
      omega

/-- The assignment is the only old node that is changed, so what does not have it is still held. -/
theorem ResultStored.holds {slot : Slot} {D : Tree Nat Name}
    (stored : C.ResultStored names q₁ q' T.tag method slot operands property)
    (held : q₁.store.Holds D) (away : T.tag ∉ D.ids) : q'.store.Holds D :=
  held.evolve stored.step.grown fun _ inside same => away (same ▸ inside)

/-- The assignment is marked at last, and marks elsewhere stay. -/
theorem ResultStored.relabel_marks {slot : Slot} {part : Tree.Part Nat Name}
    (stored : C.ResultStored names q₁ q' T.tag method slot operands property)
    (held : ∀ D ∈ part, q₁.store.Holds D ∧ T.tag ∉ D.ids) :
    part.map (Tree.relabel (marks q')) = part.map (Tree.relabel (marks q₁)) := by
  refine Tree.relabelPart_congr fun D mem x inside => ?_
  have bound := (held D mem).1.lt_size inside
  have other : x ≠ T.tag := fun same => (held D mem).2 (same ▸ inside)
  simp [marks, stored.replaced x bound, stored.settled x bound, beq_false_of_ne other]

/-- The store holds the lowered assignment, if it holds the parts of it. -/
theorem ResultStored.holds_loweredAssign
    (stored : C.ResultStored names q₁ q' T.tag method (target.map Tree.tag)
      [copy.map Tree.tag, value.map Tree.tag] property)
    (parts : ∀ D, some D ∈ [target, copy, value] → q'.store.Holds D) :
    q'.store.Holds (Tree.loweredAssign T.tag C.library.library property q₁.store.size
      (q₁.store.size + 1) (q₁.store.size + 2) target copy value) := by
  obtain ⟨range, call, list⟩ := stored.step.call
  have member := Store.holds_libraryMember stored.step.object stored.step.callee
  have arguments : q'.store.list range = .ok ([copy, value].map (Option.map Tree.tag)) := list
  have inner := Store.holds_call call arguments member fun c mem => parts c (List.mem_cons_of_mem _ mem)
  refine @Store.holds_node _ _ _ .empty stored.step.assign (by simp [Kind.parts]) fun c child => ?_
  rcases List.mem_pair.mp (Tree.mem_children_iff.mp child) with first | inside
  · exact parts c (first ▸ List.mem_cons_self)
  · cases inside
    exact inner

end LowerCompound

theorem runs_lowerCompound (h : C.Progress names q P) {T : Tree Nat Name}
    (below : T ∈ C.tree.subtrees) {op : AssignOp} {target value : Tree.Part Nat Name}
    (assign : T.kind = .assign op target value) {method : String} (found : op.method? = some method)
    {target' value' : Tree.Part Nat Name} (targetTag : target'.map Tree.tag = target.map Tree.tag)
    (valueTag : value'.map Tree.tag = value.map Tree.tag)
    (holds : ∀ D, some D ∈ [target', value'] → q.store.Holds D)
    (apart : ∀ D, some D ∈ [target', value'] → T.tag ∉ D.ids)
    (fit : ∀ D ∈ target', D.ListsFit) (kept : q.facts.isReplaced (some T.tag) = false)
    (enclosing : Slot) :
    ∃ q' T', C.Runs (fun judge => (C.engine judge).lowerCompound enclosing T.tag method
        (target.map Tree.tag) (value.map Tree.tag)) q () q' ∧
      C.CompoundLowered names q q' P T enclosing method target' value' T' := by
  have old : T.tag < q.store.size := h.lt_size (List.mem_map_of_mem below)
  have start := h.grown.size_le
  obtain ⟨copy, q₁, run₁, h₁, copied⟩ := runs_copy h
    (fun D inside => holds D (by rw [inside]; exact List.mem_cons_self)) fit
  have extended := copied.extended
  have larger := extended.grown.size_le
  have fresh : ∀ x ∈ copy.map Tree.tag, C.store.size ≤ x := by
    intro x inside
    obtain ⟨D, here, rfl⟩ := Option.map_eq_some_iff.mp inside
    have := copied.fresh D here D.tag D.tag_mem_ids
    omega
  obtain ⟨q', property, run, progress, stored⟩ := runs_storeResult h₁ below assign found fresh
    ((extended.replaced T.tag old).trans kept) enclosing
  rw [← targetTag, ← valueTag] at stored
  have inTarget : ∀ D ∈ target', q₁.store.Holds D ∧ T.tag ∉ D.ids := by
    rintro D ⟨⟩
    exact ⟨(holds D List.mem_cons_self).evolve extended.grown fun _ _ => id,
      apart D List.mem_cons_self⟩
  have inCopy : ∀ D ∈ copy, q₁.store.Holds D ∧ T.tag ∉ D.ids := fun D mem =>
    ⟨copied.holds D mem, fun inside =>
      Nat.lt_irrefl _ (Nat.lt_of_lt_of_le old (copied.fresh D mem _ inside))⟩
  have inValue : ∀ D ∈ value', q₁.store.Holds D ∧ T.tag ∉ D.ids := by
    rintro D ⟨⟩
    have mem : some D ∈ [target', some D] := List.mem_cons_of_mem _ List.mem_cons_self
    exact ⟨(holds D mem).evolve extended.grown fun _ _ => id, apart D mem⟩
  refine ⟨q', Tree.loweredAssign T.tag C.library.library property q₁.store.size (q₁.store.size + 1)
    (q₁.store.size + 2) target' copy value', ?_, progress,
    (extended.grown.mono fun _ _ => False.elim).trans stored.step.grown, ?_, fun x bound => ?_,
    fun x bound => ?_, fun x bound => ?_, copied.sameNames ▸ stored.later,
    ⟨property, _, _, _, copy, rfl, stored.spells, ?_, ?_, stored.call, copied.added stored⟩⟩
  · rw [← targetTag]
    rw [← targetTag] at run
    exact .bind run₁ run
  · refine stored.holds_loweredAssign fun D mem => ?_
    have held : q₁.store.Holds D ∧ T.tag ∉ D.ids := by
      simp only [List.mem_cons, List.not_mem_nil, or_false] at mem
      rcases mem with here | here | here
      · exact inTarget D here.symm
      · exact inCopy D here.symm
      · exact inValue D here.symm
    exact stored.holds held.1 held.2
  · rw [stored.replaced x (Nat.lt_of_lt_of_le bound larger), extended.replaced x bound]
  · rw [stored.settled x (Nat.lt_of_lt_of_le bound larger), extended.settled x bound]
  · rw [stored.scopes, extended.references x bound]
  · unfold refers
    rw [stored.scopes]
    exact copied.refers
  · rw [stored.relabel_marks inCopy, stored.relabel_marks inTarget]
    exact copied.marks

end Setup

end BigLower
