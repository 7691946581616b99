import BigLower.Proofs.Reading

/-! # Stores that get full

There are only so many indices, and a run that needs more of them ends with a fault.
Then the store that it was on the way to would have had too many nodes or list entries:
a run either comes to that store or the store is full.
-/

namespace BigLower

namespace Store

def IsFull (s : Store) : Prop := maxIndex < s.size ∨ maxIndex < s.lists.size

instance {s : Store} : Decidable s.IsFull := inferInstanceAs (Decidable (_ ∨ _))

structure NoLarger (s s' : Store) : Prop where
  nodes : s.size ≤ s'.size
  lists : s.lists.size ≤ s'.lists.size

namespace NoLarger

variable {s s₁ s' : Store}

theorem refl (s : Store) : s.NoLarger s := ⟨Nat.le_refl _, Nat.le_refl _⟩

theorem trans (first : s.NoLarger s₁) (second : s₁.NoLarger s') : s.NoLarger s' :=
  ⟨Nat.le_trans first.nodes second.nodes, Nat.le_trans first.lists second.lists⟩

theorem isFull (h : s.NoLarger s') (full : s.IsFull) : s'.IsFull :=
  full.imp (fun many => Nat.lt_of_lt_of_le many h.nodes) fun many => Nat.lt_of_lt_of_le many h.lists

end NoLarger

section NoLarger

variable {s s' : Store}

theorem Evolves.noLarger {changed : Nat → Prop} (h : s.Evolves changed s') : s.NoLarger s' where
  nodes := h.size_le
  lists := by
    obtain ⟨more, added⟩ := h.lists
    rw [added, Array.size_append]
    exact Nat.le_add_right _ _

theorem noLarger_push (s : Store) (kind : NodeKind) (span : Span) : s.NoLarger (s.push kind span) :=
  Evolves.noLarger (s.evolves_push kind span : s.Evolves (fun _ => False) _)

theorem noLarger_append {slots : List Slot} {range : Range} (stored : s.append slots = (range, s')) :
    s.NoLarger s' :=
  Evolves.noLarger (evolves_append stored : s.Evolves (fun _ => False) s')

theorem noLarger_replace {slot : Slot} {kind : NodeKind} (replaced : s.replace slot kind = .ok s') :
    s.NoLarger s' where
  nodes := Nat.le_of_eq (size_replace replaced).symm
  lists := Nat.le_of_eq (congrArg Array.size (lists_replace replaced).symm)

end NoLarger

end Store

/--
A run that leads from one store to another comes to a result, unless the other store is
full. There are never more nodes than indices.
-/
structure Attains {α : Type} (x : Except Fault α) (a : α) (s s' : Store) : Prop where
  grown : s.NoLarger s'
  ends : x = .ok a ∧ (s.size ≤ Store.maxIndex → s'.size ≤ Store.maxIndex) ∨
    Overflows x ∧ s'.IsFull

namespace Attains

variable {α β : Type} {x : Except Fault α} {k : α → Except Fault β} {a : α} {b : β}
  {s s₁ s' : Store}

theorem of_eq (same : s'.size = s.size) (grown : s.NoLarger s') (run : x = .ok a) :
    Attains x a s s' :=
  ⟨grown, .inl ⟨run, fun few => same ▸ few⟩⟩

theorem bind (first : Attains x a s s₁) (second : Attains (k a) b s₁ s') :
    Attains (x >>= k) b s s' := by
  refine ⟨first.grown.trans second.grown, ?_⟩
  rcases first.ends with ⟨run, few⟩ | ⟨stuck, full⟩
  · rw [bind_of_eq run]
    exact second.ends.imp_left fun later => ⟨later.1, later.2 ∘ few⟩
  · exact .inr ⟨stuck.bind k, second.grown.isFull full⟩

theorem map (h : Attains x a s s') (f : α → β) :
    Attains (x >>= fun a => pure (f a)) (f a) s s' :=
  h.bind (.of_eq rfl (.refl s') rfl)

theorem overflows (h : Attains x a s s') (few : s.size ≤ Store.maxIndex)
    (many : Store.maxIndex < s'.size) : Overflows x := by
  rcases h.ends with ⟨-, kept⟩ | ⟨stuck, -⟩
  · exact absurd (kept few) (Nat.not_le.mpr many)
  · exact stuck

end Attains

/-- A step that may make the store full, and what comes after it. -/
theorem Ensures.attained {S α β : Type} {m : StateT S (Except Fault) α}
    {k : α → StateT S (Except Fault) β} {R : β → S → Prop} {a : α} {q q₁ : S} {s s' : Store}
    (first : Attains (m q) (a, q₁) s s') (next : Ensures (·.isOverflow) (k a) q₁ R) :
    Ensures (·.isOverflow) (m >>= k) q R := by
  rcases first.ends with ⟨run, -⟩ | ⟨⟨fault, ends, full⟩, -⟩
  · exact .step run next
  · exact .inl ⟨fault, bind_of_error ends, full⟩

namespace Store

variable {s s' : Store} {slots : List Slot} {range : Range}

theorem alloc_attains (s : Store) (kind : NodeKind) (span : Span) :
    Attains (s.alloc kind span) (s.size, s.push kind span) s (s.push kind span) := by
  refine ⟨s.noLarger_push kind span, ?_⟩
  unfold alloc
  rw [size_push]
  split
  · exact .inl ⟨rfl, fun _ => ‹_›⟩
  · refine .inr ⟨⟨_, rfl, rfl⟩, .inl ?_⟩
    rw [size_push]
    omega

theorem size_append (stored : s.append slots = (range, s')) : s'.size = s.size := by
  rw [size, (append_lists stored).1, size]

theorem allocList_attains (short : slots.length ≤ maxListLength)
    (stored : s.append slots = (range, s')) : Attains (s.allocList slots) (range, s') s s' := by
  by_cases room : slots = [] ∨ s.lists.size ≤ maxIndex
  · exact .of_eq (size_append stored) (noLarger_append stored)
      (allocList_eq_ok_iff.mpr ⟨room, short, stored⟩)
  · have full : maxIndex < s.lists.size := Nat.lt_of_not_le fun few => room (.inr few)
    have stuck := allocList_of_full (fun empty => room (.inl empty)) full
    have grown := noLarger_append stored
    exact ⟨grown, .inr ⟨⟨_, stuck, rfl⟩, grown.isFull (.inr full)⟩⟩

theorem replace_attains {slot : Slot} {kind : NodeKind} (replaced : s.replace slot kind = .ok s') :
    Attains (s.replace slot kind) s' s s' :=
  .of_eq (size_replace replaced) (noLarger_replace replaced) replaced

end Store

end BigLower
