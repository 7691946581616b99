import BigLower.Proofs.Rooted

/-! # Ranked stores

A ranking gives a number to some nodes of a store, larger than the numbers of their
children, and the children have numbers too. What is below a ranked node can be read,
and no ranked node is below itself, however often nodes are shared. Each change that a
pass makes keeps a ranking or extends it to the new nodes.
-/

namespace BigLower

namespace Store

/-- All that a kind refers to can be read and is of a sort, and a call has a callee. -/
structure Reads (s : Store) (sort : Nat → Prop) (k : NodeKind) : Prop where
  slots : ∀ y, .inl (some y) ∈ k.parts → sort y
  lists : ∀ range, .inr range ∈ k.parts → range.len ≤ maxListLength ∧
    ∃ slots, s.list range = .ok slots ∧ ∀ y, some y ∈ slots → sort y
  callee : ∀ args, k ≠ .call none args

def Ranked (s : Store) (rank : Nat → Nat) : Prop :=
  ∀ x, 0 < rank x → ∃ k, s.kind (some x) = .ok k ∧
    s.Reads (fun y => 0 < rank y ∧ rank y < rank x) k

section Reads

variable {s s' : Store} {sort sort' : Nat → Prop} {k : NodeKind}

theorem Reads.mono (h : s.Reads sort k) (wider : ∀ y, sort y → sort' y) : s.Reads sort' k where
  slots y mem := wider y (h.slots y mem)
  lists range mem := by
    obtain ⟨short, slots, read, sorted⟩ := h.lists range mem
    exact ⟨short, slots, read, fun y inside => wider y (sorted y inside)⟩
  callee := h.callee

theorem Reads.evolve (h : s.Reads sort k) {changed : Nat → Prop} (grown : s.Evolves changed s') :
    s'.Reads sort k where
  slots := h.slots
  lists range mem := by
    obtain ⟨short, slots, read, sorted⟩ := h.lists range mem
    exact ⟨short, slots, grown.list read, sorted⟩
  callee := h.callee

theorem Reads.of_parts (h : s.Reads sort k) {k' : NodeKind} (parts : k'.parts = k.parts)
    (callee : ∀ args, k' ≠ .call none args) : s.Reads sort k' where
  slots y mem := h.slots y (parts ▸ mem)
  lists range mem := h.lists range (parts ▸ mem)
  callee := callee

theorem reads_leaf (leaf : k.parts = []) (callee : ∀ args, k ≠ .call none args) :
    s.Reads sort k where
  slots y mem := by
    rw [leaf] at mem
    cases mem
  lists range mem := by
    rw [leaf] at mem
    cases mem
  callee := callee

theorem reads_member {o : Nat} (object : sort o) (property : Name) :
    s.Reads sort (.member (some o) property) where
  slots y mem := by
    cases List.mem_singleton.mp mem
    exact object
  lists range mem := by
    cases List.mem_singleton.mp mem
  callee := nofun

theorem reads_call {m : Nat} {args : Range} {slots : List Slot} (callee : sort m)
    (read : s.list args = .ok slots) (short : slots.length ≤ maxListLength)
    (sorted : ∀ y, some y ∈ slots → sort y) : s.Reads sort (.call (some m) args) where
  slots y mem := by
    rcases List.mem_pair.mp mem with same | same
    · cases same
      exact callee
    · cases same
  lists range mem := by
    rcases List.mem_pair.mp mem with same | same
    · cases same
    · cases same
      exact ⟨length_of_list read ▸ short, slots, read, sorted⟩
  callee := nofun

theorem reads_assign {op : AssignOp} {target value : Slot}
    (sorted : ∀ y, target = some y ∨ value = some y → sort y) :
    s.Reads sort (.assign op target value) where
  slots y mem := by
    rcases List.mem_pair.mp mem with same | same
    · exact sorted y (.inl (Sum.inl.inj same).symm)
    · exact sorted y (.inr (Sum.inl.inj same).symm)
  lists range mem := by
    rcases List.mem_pair.mp mem with same | same <;> cases same
  callee := nofun

theorem Reads.children (h : s.Reads sort k) {x : Nat} (own : s.kind (some x) = .ok k) :
    ∃ children, s.children (some x) = .ok children ∧ ∀ y ∈ children, sort y := by
  have lists : ∀ range, .inr range ∈ k.parts → ∃ list, s.list range = .ok list := by
    intro range part
    obtain ⟨-, slots, listed, -⟩ := h.lists range part
    exact ⟨slots, listed⟩
  obtain ⟨children, read⟩ := (exists_children_iff own).mpr lists
  refine ⟨children, read, fun y mem => ?_⟩
  rcases (mem_children_iff own read).mp mem with part | ⟨range, list, part, listed, inside⟩
  · exact h.slots y part
  · obtain ⟨-, slots, listed', sorted⟩ := h.lists range part
    cases listed'.symm.trans listed
    exact sorted y inside

end Reads

theorem children_congr {s : Store} {x y : Nat} {k k' : NodeKind} (own : s.kind (some x) = .ok k)
    {s' : Store} (own' : s'.kind (some y) = .ok k') (parts : k'.parts = k.parts)
    (same : s'.lists = s.lists) : s'.children (some y) = s.children (some x) := by
  have slots (list : List (Slot ⊕ Range)) : s'.slotsOf list = s.slotsOf list := by
    induction list with
    | nil => rfl
    | cons part rest ih =>
      cases part with
      | inl slot => simp only [slotsOf, ih]
      | inr range => simp only [slotsOf, ih, list_congr same]
  unfold Store.children
  rw [bind_of_eq own, bind_of_eq own', parts, slots]

namespace Ranked

variable {s s' : Store} {rank : Nat → Nat}

theorem lt_size (h : s.Ranked rank) {x : Nat} (known : 0 < rank x) : x < s.size := by
  obtain ⟨k, own, -⟩ := h x known
  obtain ⟨n, found, -⟩ := kind_eq_ok_iff.mp own
  exact node?_lt found

theorem children (h : s.Ranked rank) {x : Nat} (known : 0 < rank x) :
    ∃ children, s.children (some x) = .ok children ∧
      ∀ y ∈ children, 0 < rank y ∧ rank y < rank x := by
  obtain ⟨k, own, reads⟩ := h x known
  exact reads.children own

/-- The store holds a tree below every ranked node. -/
theorem holds (h : s.Ranked rank) {x : Nat} (known : 0 < rank x) :
    ∃ D : Tree Nat Name, D.tag = x ∧ s.Holds D := by
  induction bound : rank x using Nat.strong_induction_on generalizing x with
  | h n ih =>
    obtain ⟨children, read, smaller⟩ := h.children known
    refine holds_of_children read fun y mem => ?_
    obtain ⟨known', less⟩ := smaller y mem
    exact ih (rank y) (bound ▸ less) known' rfl

theorem child (h : s.Ranked rank) {D c : Tree Nat Name} (holds : s.Holds D)
    (known : 0 < rank D.tag) (child : c ∈ D.children) : 0 < rank c.tag ∧ rank c.tag < rank D.tag := by
  obtain ⟨children, read, smaller⟩ := h.children known
  rw [holds.children] at read
  cases read
  exact smaller c.tag (List.mem_map_of_mem child)

theorem height_le (h : s.Ranked rank) {D : Tree Nat Name} (holds : s.Holds D)
    (known : 0 < rank D.tag) : D.height ≤ rank D.tag := by
  induction D using Tree.induction with
  | step D ih =>
    apply Tree.height_le _ known
    intro c child
    obtain ⟨known', less⟩ := h.child holds known child
    have := ih c child (holds.child child) known'
    omega

theorem listsFit (h : s.Ranked rank) {D : Tree Nat Name} (holds : s.Holds D)
    (known : 0 < rank D.tag) : D.ListsFit := by
  induction D using Tree.induction with
  | step D ih =>
    intro u below list mem
    rcases Tree.mem_subtrees_iff.mp below with rfl | ⟨c, child, inside⟩
    · obtain ⟨range, kind, lists⟩ := holds.kind_list
      obtain ⟨k, own, reads⟩ := h u.tag known
      cases kind.symm.trans own
      have part : .inr range ∈ (u.kind.map (Option.map Tree.tag) fun _ => range).parts := by
        rw [Kind.parts_map]
        exact List.mem_map_of_mem (f := Sum.map _ _) mem
      have length : list.length = range.len := by simpa using length_of_list (lists list mem)
      rw [length]
      exact (reads.lists range part).1
    · exact ih c child (holds.child child) (h.child holds known child).1 u inside list mem

/-! ## Changes -/

theorem evolve (h : s.Ranked rank) (grown : s.Evolves (fun _ => False) s') : s'.Ranked rank := by
  intro x known
  obtain ⟨k, own, reads⟩ := h x known
  exact ⟨k, grown.kind own id, reads.evolve grown⟩

theorem replace (h : s.Ranked rank) {x : Nat} {k : NodeKind}
    (replaced : s.replace (some x) k = .ok s')
    (reads : s.Reads (fun y => 0 < rank y ∧ rank y < rank x) k) : s'.Ranked rank := by
  have grown := evolves_replace replaced
  intro y known
  by_cases same : y = x
  · subst same
    obtain ⟨s'', again, own⟩ := replace_of_lt (h.lt_size known) k
    cases replaced.symm.trans again
    exact ⟨k, own, reads.evolve grown⟩
  · obtain ⟨k', own, reads'⟩ := h y known
    exact ⟨k', grown.kind own same, reads'.evolve grown⟩

/-- New nodes can be ranked, if they read what is ranked. -/
theorem extend (h : s.Ranked rank) (grown : s.Evolves (fun _ => False) s') {rank' : Nat → Nat}
    (old : ∀ x, x < s.size → rank' x = rank x)
    (new : ∀ x, s.size ≤ x → 0 < rank' x → ∃ k, s'.kind (some x) = .ok k ∧
      s'.Reads (fun y => 0 < rank' y ∧ rank' y < rank' x) k) : s'.Ranked rank' := by
  intro x known
  by_cases bound : x < s.size
  · rw [old x bound] at known ⊢
    obtain ⟨k, own, reads⟩ := h x known
    refine ⟨k, grown.kind own id, (reads.evolve grown).mono fun y smaller => ?_⟩
    rw [old y (h.lt_size smaller.1)]
    exact smaller
  · exact new x (Nat.le_of_not_lt bound) known

theorem push (h : s.Ranked rank) {k : NodeKind} {n : Nat}
    (reads : s.Reads (fun y => 0 < rank y ∧ rank y < n) k) (span : Span) :
    (s.push k span).Ranked fun y => if y = s.size then n else rank y := by
  have grown : s.Evolves (fun _ => False) (s.push k span) := evolves_push s k span
  refine h.extend grown (fun x bound => if_neg (Nat.ne_of_lt bound)) fun x beyond known => ?_
  by_cases same : x = s.size
  · subst same
    refine ⟨k, kind_of_node? (node?_push_self s k span), (reads.evolve grown).mono fun y smaller => ?_⟩
    have other : y ≠ s.size := Nat.ne_of_lt (h.lt_size smaller.1)
    rw [if_pos rfl, if_neg other]
    exact smaller
  · rw [if_neg same] at known
    have := h.lt_size known
    omega

theorem calleesPresent (h : s.Ranked rank) {D : Tree Nat Name} (holds : s.Holds D)
    (known : 0 < rank D.tag) : D.CalleesPresent := by
  induction D using Tree.induction with
  | step D ih =>
    intro u below callee args call
    rcases Tree.mem_subtrees_iff.mp below with rfl | ⟨c, child, inside⟩
    · obtain ⟨range, kind, -⟩ := holds.kind_list
      obtain ⟨k, own, reads⟩ := h u.tag known
      cases kind.symm.trans own
      have there := reads.callee range
      rw [call] at there
      cases callee with
      | none => exact (there rfl).elim
      | some c => rfl
    · exact ih c child (holds.child child) (h.child holds known child).1 u inside callee args call

end Ranked

/-! ## Rankings of held trees -/

/-- What is told of the subtrees of a held tree can be told of their tops. -/
theorem Holds.exists_weight {s : Store} {T : Tree Nat Name} (holds : s.Holds T)
    (weight : Tree Nat Name → Nat) (other : Nat → Nat) :
    ∃ rank : Nat → Nat, (∀ u ∈ T.subtrees, rank u.tag = weight u) ∧
      ∀ x, x ∉ T.ids → rank x = other x := by
  classical
  refine ⟨fun x => if h : ∃ u ∈ T.subtrees, u.tag = x then weight h.choose else other x,
    fun u below => ?_, fun x outside => ?_⟩
  · have here : ∃ v ∈ T.subtrees, v.tag = u.tag := ⟨u, below, rfl⟩
    have chosen := here.choose_spec
    have same := (holds.subtree chosen.1).eq_of_tag (holds.subtree below) chosen.2
    exact (dif_pos here).trans (congrArg weight same)
  · apply dif_neg
    rintro ⟨u, below, rfl⟩
    exact outside (List.mem_map_of_mem below)

theorem Holds.reads {s : Store} {T : Tree Nat Name} (holds : s.Holds T) (fit : T.ListsFit)
    (callees : T.CalleesPresent) {sort : Nat → Prop} (sorted : ∀ c ∈ T.children, sort c.tag) :
    ∃ k, s.kind (some T.tag) = .ok k ∧ s.Reads sort k := by
  obtain ⟨range, kind, lists⟩ := holds.kind_list
  refine ⟨_, kind, ⟨fun y mem => ?_, fun range' mem => ?_, fun args call => ?_⟩⟩
  · rw [Kind.parts_map] at mem
    obtain ⟨part, inside, same⟩ := List.mem_map.mp mem
    cases part with
    | inl part =>
      obtain ⟨c, rfl, rfl⟩ := Option.map_eq_some_iff.mp (Sum.inl.inj same)
      exact sorted c (Tree.mem_children_iff.mpr (List.mem_flatMap.mpr ⟨_, inside, by simp⟩))
    | inr list => cases same
  · rw [Kind.parts_map] at mem
    obtain ⟨part, inside, same⟩ := List.mem_map.mp mem
    cases part with
    | inl part => cases same
    | inr list =>
      cases same
      have read := lists list inside
      have length : list.length = range.len := by simpa using length_of_list read
      refine ⟨length ▸ fit T T.self_mem_subtrees list inside, _, read, fun y mem => ?_⟩
      obtain ⟨c, here, rfl⟩ := Tree.some_mem_map.mp (show some y ∈ list.map _ from mem)
      exact sorted c (Tree.child_of_list inside here)
  · cases own : T.kind with
    | call callee list =>
      rw [own] at call
      cases callee with
      | none => cases callees T T.self_mem_subtrees none list own
      | some c => cases call
    | _ =>
      rw [own] at call
      cases call

/-- A copy can be ranked by its heights. -/
theorem Ranked.copy {s s' : Store} {rank : Nat → Nat} (h : s.Ranked rank)
    (grown : s.Evolves (fun _ => False) s') {D : Tree Nat Name} (holds : s'.Holds D)
    (fresh : ∀ x ∈ D.ids, s.size ≤ x) (fit : D.ListsFit) (callees : D.CalleesPresent) :
    ∃ rank', s'.Ranked rank' ∧ (∀ x, x < s.size → rank' x = rank x) ∧ rank' D.tag = D.height := by
  obtain ⟨rank', heights, others⟩ := holds.exists_weight Tree.height rank
  have old : ∀ x, x < s.size → rank' x = rank x := by
    intro x bound
    apply others
    intro mem
    have := fresh x mem
    omega
  refine ⟨rank', h.extend grown old fun x beyond known => ?_, old, heights D D.self_mem_subtrees⟩
  by_cases mem : x ∈ D.ids
  · obtain ⟨u, below, rfl⟩ := List.mem_map.mp mem
    refine (holds.subtree below).reads (fun v inside => fit v (Tree.subtrees_trans below inside))
      (fun v inside => callees v (Tree.subtrees_trans below inside)) fun c child => ?_
    have inside := Tree.subtrees_trans below (Tree.child_mem_subtrees child)
    rw [heights u below, heights c inside]
    exact ⟨c.height_pos, Tree.height_lt child⟩
  · rw [others x mem] at known
    have := h.lt_size known
    omega

end Store

end BigLower
