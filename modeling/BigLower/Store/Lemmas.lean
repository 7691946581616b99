import BigLower.Store.Basic

/-! # Reading a store after writing it

What each operation on a store does to the nodes and to the lists that can be
read from it. Adding a node or a list leaves all older nodes and lists as they
were; replacing a node changes its kind and nothing else.
-/

namespace BigLower

namespace Store

/-! ## Nodes -/

theorem contains_eq_isSome (s : Store) (slot : Slot) : s.contains slot = (s.node? slot).isSome := by
  cases slot with
  | none => rfl
  | some id =>
    by_cases h : id < s.nodes.size
    · simp [contains, node?, size, h]
    · simp [contains, node?, size, h]

theorem node?_lt {s : Store} {id : Nat} {n : Node} (h : s.node? (some id) = some n) :
    id < s.size :=
  (Array.getElem?_eq_some_iff.mp h).1

theorem node_eq_ok_iff {s : Store} {slot : Slot} {n : Node} :
    s.node slot = .ok n ↔ s.node? slot = some n := by
  unfold node
  cases s.node? slot <;> simp

theorem kind_eq_ok_iff {s : Store} {slot : Slot} {k : NodeKind} :
    s.kind slot = .ok k ↔ ∃ n, s.node? slot = some n ∧ n.kind = k := by
  unfold kind
  cases s.node? slot <;> simp

theorem span_eq_ok_iff {s : Store} {slot : Slot} {p : Span} :
    s.span slot = .ok p ↔ ∃ n, s.node? slot = some n ∧ n.span = p := by
  unfold span
  cases s.node? slot <;> simp

@[simp] theorem size_push (s : Store) (k : NodeKind) (p : Span) :
    (s.push k p).size = s.size + 1 := by
  simp [push, size]

@[simp] theorem lists_push (s : Store) (k : NodeKind) (p : Span) : (s.push k p).lists = s.lists := rfl

theorem node?_push (s : Store) (k : NodeKind) (p : Span) (id : Nat) :
    (s.push k p).node? (some id) = if id = s.size then some ⟨k, p⟩ else s.node? (some id) := by
  show (s.nodes.push ⟨k, p⟩)[id]? = _
  rw [Array.getElem?_push]
  rfl

@[simp] theorem node?_push_self (s : Store) (k : NodeKind) (p : Span) :
    (s.push k p).node? (some s.size) = some ⟨k, p⟩ := by
  simp [node?_push]

theorem node?_push_of_some {s : Store} {slot : Slot} {n : Node} (h : s.node? slot = some n)
    (k : NodeKind) (p : Span) : (s.push k p).node? slot = some n := by
  cases slot with
  | none => simp [node?] at h
  | some id =>
    have bound := node?_lt h
    rw [node?_push, if_neg (by omega), h]

/-- A node is added as long as there are indices. -/
theorem alloc_eq_ok_iff {s s' : Store} {k : NodeKind} {p : Span} {id : Nat} :
    s.alloc k p = .ok (id, s') ↔ s.size < maxIndex ∧ id = s.size ∧ s' = s.push k p := by
  unfold alloc
  by_cases room : s.size < maxIndex
  · simp [room, eq_comm]
  · simp [room]

theorem replace_eq_ok_iff {s s' : Store} {slot : Slot} {k : NodeKind} :
    s.replace slot k = .ok s' ↔
      ∃ id, slot = some id ∧ id < s.size ∧
        s' = { s with nodes := s.nodes.modify id fun n => { n with kind := k } } := by
  cases slot with
  | none => simp [replace]
  | some id =>
    by_cases h : id < s.size
    · simp [replace, h, eq_comm]
    · simp [replace, h]

theorem node?_replace {s s' : Store} {id : Nat} {k : NodeKind}
    (h : s.replace (some id) k = .ok s') (id' : Nat) :
    s'.node? (some id') =
      if id' = id then (s.node? (some id)).map fun n => { n with kind := k }
      else s.node? (some id') := by
  obtain ⟨id₀, same, bound, rfl⟩ := replace_eq_ok_iff.mp h
  cases same
  by_cases hid : id' = id
  · subst hid
    simp [node?, Array.getElem?_modify]
  · simp [node?, Array.getElem?_modify, hid, Ne.symm hid]

theorem size_replace {s s' : Store} {slot : Slot} {k : NodeKind} (h : s.replace slot k = .ok s') :
    s'.size = s.size := by
  obtain ⟨_, _, _, rfl⟩ := replace_eq_ok_iff.mp h
  simp [size]

theorem lists_replace {s s' : Store} {slot : Slot} {k : NodeKind} (h : s.replace slot k = .ok s') :
    s'.lists = s.lists := by
  obtain ⟨_, _, _, rfl⟩ := replace_eq_ok_iff.mp h
  rfl

/-! ## Lists -/

@[simp] theorem list_empty (s : Store) : s.list .empty = .ok [] := rfl

theorem list_congr {s s' : Store} (h : s'.lists = s.lists) (r : Range) : s'.list r = s.list r := by
  simp [list, h]

theorem length_of_list {s : Store} {r : Range} {slots : List Slot} (h : s.list r = .ok slots) :
    slots.length = r.len := by
  unfold list at h
  split at h
  · rename_i empty
    cases h
    exact (beq_iff_eq.mp empty).symm
  · split at h
    · rename_i bound
      cases h
      unfold Range.stop at bound ⊢
      rw [Array.length_toList, Array.size_extract]
      omega
    · cases h

/-- Entries added behind the others leave every readable list as it was. -/
theorem list_of_append {s s' : Store} {more : Array Slot} (h : s'.lists = s.lists ++ more)
    {r : Range} {slots : List Slot} (read : s.list r = .ok slots) : s'.list r = .ok slots := by
  unfold list at read ⊢
  split at read
  · rename_i empty
    simpa [empty] using read
  · rename_i filled
    split at read
    · rename_i bound
      have wider : r.stop ≤ s'.lists.size := by
        rw [h, Array.size_append]
        omega
      cases read
      rw [if_neg filled, if_pos wider, h, Array.extract_append]
      have none_left : r.stop - s.lists.size = 0 := by omega
      simp [none_left]
    · cases read

theorem list_append {s s' : Store} {slots : List Slot} {r : Range}
    (h : s.append slots = (r, s')) : s'.list r = .ok slots := by
  unfold append at h
  split at h
  · rename_i empty
    cases h
    simp [List.isEmpty_iff.mp empty]
  · rename_i filled
    cases h
    have nonempty : slots.length ≠ 0 := by
      intro zero
      exact filled (List.isEmpty_iff.mpr (List.eq_nil_of_length_eq_zero zero))
    simp [list, Range.isEmpty, Range.stop, nonempty]

theorem append_lists {s s' : Store} {slots : List Slot} {r : Range}
    (h : s.append slots = (r, s')) : s'.nodes = s.nodes ∧ s'.lists = s.lists ++ slots.toArray := by
  unfold append at h
  split at h
  · rename_i empty
    cases h
    simp [List.isEmpty_iff.mp empty]
  · cases h
    simp

/-- A list is stored exactly if there is a range for it. -/
theorem allocList_eq_ok_iff {s s' : Store} {slots : List Slot} {r : Range} :
    s.allocList slots = .ok (r, s') ↔
      (slots = [] ∨ s.lists.size ≤ maxIndex) ∧ slots.length ≤ maxListLength ∧
        s.append slots = (r, s') := by
  unfold allocList
  by_cases room : slots = [] ∨ s.lists.size ≤ maxIndex
  · have free : ¬ (!slots.isEmpty && decide (maxIndex < s.lists.size)) = true := by
      simpa using room.resolve_left
    rw [if_neg free]
    by_cases short : slots.length ≤ maxListLength
    · simp [room, short]
    · simp [short]
  · have full : (!slots.isEmpty && decide (maxIndex < s.lists.size)) = true := by
      simpa using room
    rw [if_pos full]
    simp [room]

theorem allocList_of_full {s : Store} {slots : List Slot} (filled : slots ≠ [])
    (full : maxIndex < s.lists.size) :
    s.allocList slots = .error (.tooManyEntries s.lists.size) := by
  unfold allocList
  rw [if_pos (by simp [filled, full])]

/-- A list that no range can count is refused, if there is still a range to start with. -/
theorem allocList_of_long {s : Store} {slots : List Slot} (room : s.lists.size ≤ maxIndex)
    (long : maxListLength < slots.length) :
    s.allocList slots = .error (.listTooLong slots.length) := by
  unfold allocList
  rw [if_neg (by simp; omega), if_neg (Nat.not_le.mpr long)]

theorem list_allocList {s s' : Store} {slots : List Slot} {r : Range}
    (h : s.allocList slots = .ok (r, s')) : s'.list r = .ok slots :=
  list_append (allocList_eq_ok_iff.mp h).2.2

theorem start_of_allocList {s s' : Store} {slots : List Slot} {r : Range}
    (h : s.allocList slots = .ok (r, s')) : r = .empty ∨ r.start = s.lists.size := by
  have stored := (allocList_eq_ok_iff.mp h).2.2
  unfold append at stored
  split at stored
  · cases stored
    exact .inl rfl
  · cases stored
    exact .inr rfl

/-- Storing a list adds its entries behind the others, and leaves the nodes alone. -/
theorem allocList_lists {s s' : Store} {slots : List Slot} {r : Range}
    (h : s.allocList slots = .ok (r, s')) :
    s'.nodes = s.nodes ∧ s'.lists = s.lists ++ slots.toArray :=
  append_lists (allocList_eq_ok_iff.mp h).2.2

/-- To put an entry in front of a list that can be read is to store the longer list. -/
theorem prepend_eq_allocList {s : Store} {r : Range} {slots : List Slot}
    (read : s.list r = .ok slots) (first : Slot) :
    s.prepend r first = s.allocList (first :: slots) := by
  have length := length_of_list read
  unfold list at read
  unfold prepend allocList append
  simp only [List.isEmpty_cons, Bool.not_false, Bool.true_and, decide_eq_true_eq,
    Bool.false_eq_true, if_false, List.length_cons, length]
  congr 1
  split at read
  · rename_i empty
    cases read
    have none_left : r.len = 0 := beq_iff_eq.mp empty
    rw [if_pos empty, none_left, if_pos (by decide), Array.push_eq_append]
  · rename_i filled
    split at read
    · rename_i bound
      cases read
      have old : (s.lists.push first).extract r.start r.stop = s.lists.extract r.start r.stop := by
        rw [Array.push_eq_append, Array.extract_append]
        have rest : r.stop - s.lists.size = 0 := by omega
        simp [rest]
      have entries : s.lists.push first ++ s.lists.extract r.start r.stop =
          s.lists ++ (first :: (s.lists.extract r.start r.stop).toList).toArray := by
        apply Array.toList_inj.mp
        simp
      rw [if_neg filled, if_neg (by omega), old, entries]
      rfl
    · cases read

theorem prepend_lists {s s' : Store} {r r' : Range} {first : Slot}
    (h : s.prepend r first = .ok (r', s')) :
    s'.nodes = s.nodes ∧ ∃ more, s'.lists = s.lists ++ more := by
  unfold prepend at h
  split at h
  · cases h
  · split at h
    · cases h
      exact ⟨rfl, #[first], Array.push_eq_append⟩
    · split at h
      · cases h
      · split at h
        · cases h
          refine ⟨rfl, #[first] ++ (s.lists.push first).extract r.start r.stop, ?_⟩
          rw [← Array.append_assoc, ← Array.push_eq_append]
        · cases h

end Store

end BigLower
