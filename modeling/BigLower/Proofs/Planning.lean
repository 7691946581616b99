import BigLower.Proofs.Tour

/-! # The turns of a plan

Every node is entered once and left once, and it is lowered at one of these two
visits or never: its turn. So what a plan has collected at some point of the tour
can be told from the nodes that are lowered in the end.
-/

namespace BigLower

def Visit.key (v : Visit) : Bool × Nat := (v.leaving, v.tree.tag)

/-- A visit stands at one place only among visits that have different keys. -/
theorem Visit.split_unique {before after before' after' : List Visit} {v v' : Visit}
    (distinct : ((before ++ v :: after).map key).Nodup)
    (split : before ++ v :: after = before' ++ v' :: after') (same : v.key = v'.key) :
    before = before' ∧ v = v' ∧ after = after' := by
  have once {b a : List Visit} {w w' : Visit} (distinct : ((b ++ w :: a).map key).Nodup)
      (mem : w' ∈ a) : w.key ≠ w'.key := by
    intro same
    rw [List.map_append, List.map_cons] at distinct
    exact (List.nodup_cons.mp distinct.of_append_right).1 (same ▸ List.mem_map_of_mem mem)
  rcases List.append_eq_append_iff.mp split with ⟨more, rfl, rest⟩ | ⟨more, rfl, rest⟩
  · cases more with
    | nil => simpa using rest
    | cons w more =>
      rw [List.cons_append, List.cons.injEq] at rest
      exact (once distinct (rest.2 ▸ List.mem_append_right more List.mem_cons_self) same).elim
  · cases more with
    | nil => simpa [eq_comm] using rest
    | cons w more =>
      rw [List.cons_append, List.cons.injEq] at rest
      rw [split] at distinct
      exact (once distinct (rest.2 ▸ List.mem_append_right more List.mem_cons_self) same.symm).elim

namespace Tree

variable {T u : Tree Nat Name} {enclosing enclosing' : Slot} {before after : List Visit}

/-! ## Tours visit every node twice -/

theorem mem_subtrees_of_before {v : Visit} (split : T.tour enclosing = before ++ after)
    (mem : v ∈ before) : v.tree ∈ T.subtrees :=
  mem_subtrees_of_tour (split ▸ List.mem_append_left after mem)

theorem mem_subtrees_of_split {v : Visit} (split : T.tour enclosing = before ++ v :: after) :
    v.tree ∈ T.subtrees :=
  mem_subtrees_of_tour (split ▸ List.mem_append_right before List.mem_cons_self)

/-- A tour enters every node as often as it is in the tree, and leaves it as often. -/
theorem count_tour (T : Tree Nat Name) (enclosing : Slot) (leaving : Bool) (x : Nat) :
    ((T.tour enclosing).map Visit.key).count (leaving, x) = T.ids.count x := by
  induction T using induction generalizing enclosing with
  | step T ih =>
    have below : ((T.children.flatMap (tour · (T.inner enclosing))).map Visit.key).count
        (leaving, x) = (T.children.flatMap ids).count x := by
      rw [List.map_flatMap, List.count_flatMap, List.count_flatMap]
      exact congrArg List.sum (List.map_congr_left fun c child => ih c child (T.inner enclosing))
    rw [tour_eq, ids_eq, List.cons_append, List.map_cons, List.map_append, List.count_cons,
      List.count_append, below, List.count_cons]
    cases leaving <;> simp [Visit.key, List.count_cons]

theorem nodup_tour (distinct : T.ids.Nodup) (enclosing : Slot) :
    ((T.tour enclosing).map Visit.key).Nodup := by
  refine List.nodup_iff_count_le_one.mpr fun ⟨leaving, x⟩ => ?_
  rw [count_tour]
  exact List.nodup_iff_count_le_one.mp distinct x

theorem tour_of_subtree (below : u ∈ T.subtrees) (enclosing : Slot) :
    ∃ first inside last, T.tour enclosing = first ++ u.tour inside ++ last := by
  induction T using induction generalizing enclosing with
  | step T ih =>
    rcases mem_subtrees_iff.mp below with rfl | ⟨c, child, inside⟩
    · exact ⟨[], enclosing, [], by simp⟩
    · obtain ⟨first, enclosing', last, whole⟩ := ih c child inside (T.inner enclosing)
      obtain ⟨left, right, children⟩ := List.append_of_mem child
      refine ⟨⟨false, T, enclosing⟩ :: left.flatMap (tour · (T.inner enclosing)) ++ first, enclosing',
        last ++ right.flatMap (tour · (T.inner enclosing)) ++ [⟨true, T, enclosing⟩], ?_⟩
      rw [tour_eq, children, List.flatMap_append, List.flatMap_cons, whole]
      simp only [List.cons_append, List.append_assoc]

theorem mem_tour_of_subtree (below : u ∈ T.subtrees) (enclosing : Slot) (leaving : Bool) :
    ∃ inside, ⟨leaving, u, inside⟩ ∈ T.tour enclosing := by
  obtain ⟨first, inside, last, whole⟩ := tour_of_subtree below enclosing
  refine ⟨inside, ?_⟩
  rw [whole, tour_eq]
  cases leaving <;> simp

def isDeclarator (T : Tree Nat Name) : Bool :=
  match T.kind with
  | .declarator .. => true
  | _ => false

theorem enclosing_of_tour {v : Visit} (mem : v ∈ T.tour enclosing) :
    v.enclosing = enclosing ∨ ∃ d ∈ T.subtrees, d.isDeclarator = true ∧ v.tree ∈ d.subtrees ∧
      v.enclosing = some d.tag := by
  induction T using induction generalizing enclosing with
  | step T ih =>
    rw [tour_eq] at mem
    rcases List.mem_append.mp mem with first | last
    · rcases List.mem_cons.mp first with rfl | below
      · exact .inl rfl
      · obtain ⟨c, child, inside⟩ := List.mem_flatMap.mp below
        rcases ih c child inside with outer | ⟨d, deep, declarator, same⟩
        · unfold inner at outer
          split at outer
          · rename_i kind
            exact .inr ⟨T, T.self_mem_subtrees, by simp [isDeclarator, kind],
              mem_subtrees_of_child child (mem_subtrees_of_tour inside), outer⟩
          · exact .inl outer
        · exact .inr ⟨d, mem_subtrees_of_child child deep, declarator, same⟩
    · rw [List.mem_singleton.mp last]
      exact .inl rfl

/-- Where a node is entered its own tour begins. -/
theorem tour_at_enter (distinct : T.ids.Nodup)
    (split : T.tour enclosing = before ++ ⟨false, u, enclosing'⟩ :: after) :
    ∃ last, T.tour enclosing = before ++ u.tour enclosing' ++ last := by
  obtain ⟨first, inside, last, whole⟩ := tour_of_subtree (mem_subtrees_of_split split) enclosing
  have entered : T.tour enclosing = first ++ ⟨false, u, inside⟩ ::
      (u.children.flatMap (tour · (u.inner inside)) ++ ⟨true, u, inside⟩ :: last) := by
    rw [whole, tour_eq]
    simp
  have keys := nodup_tour distinct enclosing
  rw [split] at keys
  obtain ⟨rfl, same, -⟩ := Visit.split_unique keys (split.symm.trans entered) rfl
  cases same
  exact ⟨last, whole⟩

/-- Before a node is entered nothing below it was visited. -/
theorem tag_ne_of_before (distinct : T.ids.Nodup)
    (split : T.tour enclosing = before ++ ⟨false, u, enclosing'⟩ :: after) {c : Tree Nat Name}
    (below : c ∈ u.subtrees) {v : Visit} (visited : v ∈ before) : v.tree.tag ≠ c.tag := by
  intro same
  obtain ⟨last, whole⟩ := tour_at_enter distinct split
  obtain ⟨inside, later⟩ := mem_tour_of_subtree below enclosing' v.leaving
  have keys := nodup_tour distinct enclosing
  rw [whole, List.append_assoc, List.map_append] at keys
  refine List.disjoint_of_nodup_append keys (List.mem_map_of_mem visited) ?_
  have key : v.key = (⟨v.leaving, c, inside⟩ : Visit).key := Prod.ext rfl same
  rw [key]
  exact List.mem_map_of_mem (List.mem_append_left last later)

/-- Before a node is left it was entered, and then all below it was visited. -/
theorem tour_at_leave (distinct : T.ids.Nodup)
    (split : T.tour enclosing = before ++ ⟨true, u, enclosing'⟩ :: after) :
    ∃ first, before = first ++
      ⟨false, u, enclosing'⟩ :: u.children.flatMap (tour · (u.inner enclosing')) := by
  obtain ⟨first, inside, last, whole⟩ := tour_of_subtree (mem_subtrees_of_split split) enclosing
  have left : T.tour enclosing = (first ++ ⟨false, u, inside⟩ ::
      u.children.flatMap (tour · (u.inner inside))) ++ ⟨true, u, inside⟩ :: last := by
    rw [whole, tour_eq]
    simp
  have keys := nodup_tour distinct enclosing
  rw [split] at keys
  obtain ⟨rfl, same, -⟩ := Visit.split_unique keys (split.symm.trans left) rfl
  cases same
  exact ⟨first, rfl⟩

/-! ## Turns -/

/-- Whether the top is lowered, if at all, when it is left. -/
def isLate (constructor : Name) (T : Tree Nat Name) : Bool :=
  match T.kind with
  | .assign .. => true
  | .call .. => !T.isConstructorCall constructor
  | _ => false

theorem isLate_of_isLoweredOnEntry {e : Evidence} (entry : T.isLoweredOnEntry e = true) :
    T.isLate e.constructor = false := by
  unfold isLoweredOnEntry at entry
  unfold isLate isConstructorCall
  cases kind : T.kind <;> simp_all

theorem isLate_of_isInert (inert : T.kind.isInert = true) (constructor : Name) :
    T.isLate constructor = false := by
  unfold isLate
  cases kind : T.kind <;> simp_all [Kind.isInert]

theorem isLate_of_isPostponed {e : Evidence} (postponed : T.isPostponed e = true)
    (constructor : Name) : T.isLate constructor = true := by
  unfold isPostponed at postponed
  unfold isLate
  cases kind : T.kind <;> simp_all

theorem isLate_of_isBigMemberCall {e : Evidence} (big : T.isBigMemberCall e = true) :
    T.isLate e.constructor = true := by
  unfold isBigMemberCall at big
  unfold isLate isConstructorCall
  split at big
  · rename_i callee args kind
    cases callee <;> simp_all
  · cases big

end Tree

/-- Whether this is the visit at which the node is lowered, if at all. -/
def Visit.isTurn (constructor : Name) (v : Visit) : Bool :=
  v.leaving == v.tree.isLate constructor

namespace Policy

variable (k : Policy) {P : Plan} {v : Visit} {visits : List Visit}

def marks (P : Plan) (v : Visit) : Bool :=
  if v.leaving then
    decide (v.tree.tag ∈ P.pending) || k.memberCalls && v.tree.isBigMemberCall (k.evidence P)
  else v.tree.isLoweredOnEntry (k.evidence P)

def marked : List Visit → Plan → List Visit
  | [], _ => []
  | v :: rest, P => if k.marks P v then v :: marked rest (k.step P v) else marked rest (k.step P v)

theorem step_of_marks (marks : k.marks P v = true) :
    k.step P v = k.mark P v.enclosing v.tree.tag := by
  unfold Policy.marks at marks
  unfold step leave enter
  split at marks <;> rename_i leaving
  · rw [if_pos leaving, if_pos (by simpa using marks)]
  · rw [if_neg leaving, if_pos marks]

theorem step_of_not_marks (marks : k.marks P v = false) :
    ∃ pending, k.step P v = { P with pending } := by
  unfold Policy.marks at marks
  unfold step leave enter
  split at marks <;> rename_i leaving
  · exact ⟨P.pending, by rw [if_pos leaving, if_neg (by simpa using marks)]⟩
  · rw [if_neg leaving, if_neg (by simp [marks])]
    split
    · exact ⟨_, rfl⟩
    · exact ⟨P.pending, rfl⟩

theorem mem_marked_iff : v ∈ k.marked visits P ↔
    ∃ before after, visits = before ++ v :: after ∧ k.marks (k.plan before P) v = true := by
  induction visits generalizing P with
  | nil => simp [marked]
  | cons w rest ih =>
    have later : (∃ before after, w :: rest = before ++ v :: after ∧
        k.marks (k.plan before P) v = true) ↔ (w = v ∧ k.marks P v = true) ∨
          ∃ before after, rest = before ++ v :: after ∧
            k.marks (k.plan before (k.step P w)) v = true := by
      constructor
      · rintro ⟨before, after, split, marks⟩
        cases before with
        | nil =>
          cases split
          exact .inl ⟨rfl, marks⟩
        | cons _ before =>
          cases split
          exact .inr ⟨before, after, rfl, marks⟩
      · rintro (⟨rfl, marks⟩ | ⟨before, after, rfl, marks⟩)
        · exact ⟨[], rest, rfl, marks⟩
        · exact ⟨w :: before, after, rfl, marks⟩
    rw [later, ← ih, marked]
    split
    · rw [List.mem_cons, eq_comm]
      exact or_congr_left ⟨fun same => ⟨same, same ▸ ‹_›⟩, And.left⟩
    · refine ⟨.inr, ?_⟩
      rintro (⟨rfl, marks⟩ | mem)
      · contradiction
      · exact mem

/-- What a plan collects it collects at the visits at which a node is lowered. -/
theorem mem_collected {field : Plan → List Nat} {part : Visit → List Nat}
    (added : ∀ P v, field (k.mark P v.enclosing v.tree.tag) = part v ++ field P)
    (kept : ∀ P pending, field { P with pending } = field P) {x : Nat} :
    x ∈ field (k.plan visits P) ↔ (∃ v ∈ k.marked visits P, x ∈ part v) ∨ x ∈ field P := by
  induction visits generalizing P with
  | nil => simp [marked, plan]
  | cons v rest ih =>
    have whole : k.plan (v :: rest) P = k.plan rest (k.step P v) := rfl
    rw [whole, ih, marked]
    cases marks : k.marks P v with
    | true =>
      rw [k.step_of_marks marks, added, List.mem_append, if_pos rfl, List.exists_mem_cons_iff,
        or_left_comm, or_assoc]
    | false =>
      obtain ⟨pending, same⟩ := k.step_of_not_marks marks
      rw [same, kept, if_neg Bool.false_ne_true]

theorem mem_replaced_iff {x : Nat} :
    x ∈ (k.plan visits {}).replaced ↔ ∃ v ∈ k.marked visits {}, v.tree.tag = x := by
  have all := @mem_collected k {} visits Plan.replaced (fun v => [v.tree.tag]) (fun _ _ => rfl)
    (fun _ _ => rfl) x
  simpa [eq_comm] using all

theorem mem_declarators_iff {x : Nat} :
    x ∈ (k.plan visits {}).declarators ↔ ∃ v ∈ k.marked visits {}, v.enclosing = some x := by
  have all := @mem_collected k {} visits Plan.declarators (fun v => v.enclosing.toList)
    (fun _ _ => rfl) (fun _ _ => rfl) x
  simpa using all

theorem mem_bindings_iff {b : Nat} :
    b ∈ (k.plan visits {}).bindings ↔
      ∃ v ∈ k.marked visits {}, k.scopes.declaredBy v.enclosing = some b := by
  have all := @mem_collected k {} visits Plan.bindings
    (fun v => (k.scopes.declaredBy v.enclosing).toList) (fun _ _ => rfl) (fun _ _ => rfl) b
  simpa using all

section Tours

variable {T u : Tree Nat Name} (distinct : T.ids.Nodup) {before after : List Visit}

include distinct

theorem postponed_of_pending (split : T.tour none = before ++ after) (below : u ∈ T.subtrees)
    (pending : u.tag ∈ (k.plan before {}).pending) : ∃ e, u.isPostponed e = true := by
  rcases k.mem_pending_plan pending with start | ⟨v, visited, same, postponed⟩
  · cases start
  · have inside := Tree.mem_subtrees_of_before split visited
    rwa [Tree.eq_of_tag_eq distinct inside below same] at postponed

/-- A node is only lowered at its turn. -/
theorem isTurn_of_marks (split : T.tour none = before ++ v :: after)
    (marks : k.marks (k.plan before {}) v = true) : v.isTurn k.constructor = true := by
  have inside := Tree.mem_subtrees_of_split split
  unfold Policy.marks at marks
  unfold Visit.isTurn
  split at marks <;> rename_i leaving
  · rw [leaving]
    rw [Bool.or_eq_true, decide_eq_true_eq, Bool.and_eq_true] at marks
    rcases marks with pending | ⟨-, big⟩
    · obtain ⟨e, postponed⟩ := k.postponed_of_pending distinct split inside pending
      simp [Tree.isLate_of_isPostponed postponed]
    · simp [show v.tree.isLate k.constructor = true from Tree.isLate_of_isBigMemberCall big]
  · rw [Bool.eq_false_iff.mpr leaving]
    simp [show v.tree.isLate k.constructor = false from Tree.isLate_of_isLoweredOnEntry marks]

/-- At its turn it is decided whether a node is lowered in the end. -/
theorem mem_replaced_iff_marks (split : T.tour none = before ++ v :: after)
    (turn : v.isTurn k.constructor = true) :
    v.tree.tag ∈ (k.plan (T.tour none) {}).replaced ↔ k.marks (k.plan before {}) v = true := by
  rw [mem_replaced_iff]
  constructor
  · rintro ⟨v', marked, same⟩
    obtain ⟨before', after', split', marks⟩ := k.mem_marked_iff.mp marked
    -- The visits are to one tree and at its turn, so they have one key and are the same.
    have tree : v'.tree = v.tree := Tree.eq_of_tag_eq distinct (Tree.mem_subtrees_of_split split')
      (Tree.mem_subtrees_of_split split) same
    have turn' := k.isTurn_of_marks distinct split' marks
    unfold Visit.isTurn at turn turn'
    rw [beq_iff_eq] at turn turn'
    rw [tree, ← turn] at turn'
    have keys := Tree.nodup_tour distinct none
    rw [split] at keys
    obtain ⟨rfl, rfl, -⟩ := Visit.split_unique keys (split.symm.trans split')
      (Prod.ext turn'.symm same.symm)
    exact marks
  · exact fun marks => ⟨v, k.mem_marked_iff.mpr ⟨before, after, split, marks⟩, rfl⟩

/-- What was lowered so far are the nodes that had their turn and are lowered in the end. -/
theorem mem_marked_iff_turn (split : T.tour none = before ++ after) :
    v ∈ k.marked before {} ↔ v ∈ before ∧ v.isTurn k.constructor = true ∧
      v.tree.tag ∈ (k.plan (T.tour none) {}).replaced := by
  constructor
  · intro marked
    obtain ⟨first, last, rfl, marks⟩ := k.mem_marked_iff.mp marked
    have whole : T.tour none = first ++ v :: (last ++ after) := by rw [split, List.append_assoc]; rfl
    have turn := k.isTurn_of_marks distinct whole marks
    exact ⟨List.mem_append_right first List.mem_cons_self, turn,
      (k.mem_replaced_iff_marks distinct whole turn).mpr marks⟩
  · rintro ⟨mem, turn, replaced⟩
    obtain ⟨first, last, rfl⟩ := List.append_of_mem mem
    have whole : T.tour none = first ++ v :: (last ++ after) := by rw [split, List.append_assoc]; rfl
    exact k.mem_marked_iff.mpr
      ⟨first, last, rfl, (k.mem_replaced_iff_marks distinct whole turn).mp replaced⟩

end Tours

end Policy

end BigLower
