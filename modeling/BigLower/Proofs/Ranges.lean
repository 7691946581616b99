import BigLower.Proofs.Reading
import BigLower.Store.Copy

/-! # Lists do not disturb each other

The lists of a store are ranges of one array. Whatever is done to a store, a range that
it has given out goes on to read the entries that were stored there, but for those that
are overwritten through this very range.
-/

namespace BigLower

namespace Range

def Covers (r : Range) (i : Nat) : Prop := r.start ≤ i ∧ i < r.stop

def Apart (r r' : Range) : Prop := ∀ i, r.Covers i → ¬ r'.Covers i

theorem Apart.symm {r r' : Range} (h : r.Apart r') : r'.Apart r :=
  fun i there here => h i here there

instance : Std.Symm Apart := ⟨fun _ _ h => h.symm⟩

end Range

def Kind.lists {ν σ ρ : Type} (k : Kind ν σ ρ) : List ρ := k.parts.filterMap Sum.getRight?

namespace Store

variable {s s' : Store} {r r' : Range} {slots : List Slot}

/-! ## Reading and overwriting -/

theorem list_eq_ok_iff : s.list r = .ok slots ↔
    (r.len = 0 ∨ r.stop ≤ s.lists.size) ∧ slots = (s.lists.toList.drop r.start).take r.len := by
  have piece : (s.lists.extract r.start r.stop).toList =
      (s.lists.toList.drop r.start).take r.len := by
    simp [Range.stop]
  unfold list
  by_cases empty : r.len = 0
  · simp [Range.isEmpty, empty, eq_comm]
  · rw [if_neg (by simpa [Range.isEmpty] using empty)]
    by_cases inside : r.stop ≤ s.lists.size
    · rw [if_pos inside, piece, Except.ok.injEq]
      exact ⟨fun same => ⟨.inr inside, same.symm⟩, fun h => h.2.symm⟩
    · simp [empty, inside]

theorem list_of_stop_le (s : Store) (inside : r.stop ≤ s.lists.size) :
    ∃ slots, s.list r = .ok slots :=
  ⟨_, list_eq_ok_iff.mpr ⟨.inr inside, rfl⟩⟩

section Overwriting

variable {index : Nat} {slot : Slot}

theorem setListItem_eq_ok_iff : s.setListItem r index slot = .ok s' ↔
    index < r.len ∧ r.start + index < s.lists.size ∧
      s' = { s with lists := s.lists.setIfInBounds (r.start + index) slot } := by
  unfold setListItem
  by_cases counted : index < r.len
  · by_cases inside : r.start + index < s.lists.size
    · simp [counted, inside, eq_comm]
    · simp [counted, inside]
  · simp [counted]

/-- What is overwritten through a range is read through it. -/
theorem list_setListItem (h : s.setListItem r index slot = .ok s') (read : s.list r = .ok slots) :
    s'.list r = .ok (slots.set index slot) := by
  obtain ⟨-, -, rfl⟩ := setListItem_eq_ok_iff.mp h
  obtain ⟨inside, rfl⟩ := list_eq_ok_iff.mp read
  refine list_eq_ok_iff.mpr ⟨by simpa using inside, ?_⟩
  rw [Array.toList_setIfInBounds, List.drop_set, if_neg (by omega), Nat.add_sub_cancel_left,
    List.take_set]

/-- What is overwritten through a range is not seen through one that is apart from it. -/
theorem list_setListItem_of_apart (h : s.setListItem r index slot = .ok s') (apart : r.Apart r')
    (read : s.list r' = .ok slots) : s'.list r' = .ok slots := by
  obtain ⟨counted, -, rfl⟩ := setListItem_eq_ok_iff.mp h
  obtain ⟨inside, rfl⟩ := list_eq_ok_iff.mp read
  refine list_eq_ok_iff.mpr ⟨by simpa using inside, ?_⟩
  have outside : ¬ r'.Covers (r.start + index) :=
    apart _ ⟨Nat.le_add_right _ _, Nat.add_lt_add_left counted _⟩
  unfold Range.Covers Range.stop at outside
  rw [Array.toList_setIfInBounds, List.drop_set]
  split
  · rfl
  · rw [List.take_set, List.set_eq_of_length_le]
    rw [List.length_take]
    omega

end Overwriting

/-! ## New ranges -/

theorem stop_of_allocList (h : s.allocList slots = .ok (r, s')) : r.stop ≤ s'.lists.size := by
  have length := length_of_list (list_allocList h)
  rcases start_of_allocList h with rfl | start
  · exact Nat.zero_le _
  · rw [(allocList_lists h).2, Range.stop, start, ← length]
    simp

theorem apart_of_allocList (h : s.allocList slots = .ok (r, s')) (inside : r'.stop ≤ s.lists.size) :
    r.Apart r' := by
  rintro i ⟨after, before⟩ ⟨-, before'⟩
  rcases start_of_allocList h with rfl | start
  · exact Nat.not_lt_zero i before
  · omega

/-! ## Edits -/

def rangesFrom (s : Store) (first : Nat) : List Range :=
  (s.nodes.toList.drop first).flatMap fun n => n.kind.lists

inductive Edit where
  | alloc (kind : NodeKind) (span : Span)
  | replace (slot : Slot) (kind : NodeKind)
  | allocList (slots : List Slot)
  | prepend (range : Range) (first : Slot)
  | deepCopy (slot : Slot)
  | setListItem (range : Range) (index : Nat) (slot : Slot)

/-- A store that is edited, and the ranges that it has given out, the latest first. -/
structure Editing where
  store : Store := {}
  given : List Range := []

namespace Editing

/--
Make an edit. A new list has its range given out. The lists of a copy are given out with
the copied nodes.
-/
def perform (e : Editing) : Edit → Except Fault Editing
  | .alloc kind span => do
    let (_, store) ← e.store.alloc kind span
    return { e with store }
  | .replace slot kind => return { e with store := ← e.store.replace slot kind }
  | .allocList slots => do
    let (range, store) ← e.store.allocList slots
    return ⟨store, range :: e.given⟩
  | .prepend range first => do
    let (range, store) ← e.store.prepend range first
    return ⟨store, range :: e.given⟩
  | .deepCopy slot => do
    let (_, store) ← e.store.deepCopy slot
    return ⟨store, store.rangesFrom e.store.size ++ e.given⟩
  | .setListItem range index slot =>
    return { e with store := ← e.store.setListItem range index slot }

def Allows (e : Editing) : Edit → Prop
  | .prepend range _ | .setListItem range _ _ => range ∈ e.given
  | _ => True

inductive Runs : Editing → List Edit → Editing → Prop where
  | nil (e : Editing) : Runs e [] e
  | cons {e e₁ e' : Editing} {edit : Edit} {rest : List Edit} (allowed : e.Allows edit)
    (made : e.perform edit = .ok e₁) (later : Runs e₁ rest e') : Runs e (edit :: rest) e'

theorem Runs.append {e e₁ e' : Editing} {edits later : List Edit} (first : Runs e edits e₁)
    (second : Runs e₁ later e') : Runs e (edits ++ later) e' := by
  induction first with
  | nil => exact second
  | cons allowed made _ ih => exact .cons allowed made (ih second)

/-! ## What an edit keeps -/

/-- What is so at any time: the ranges that were given out are in the store and apart. -/
structure Sound (e : Editing) : Prop where
  inside : ∀ r ∈ e.given, r.stop ≤ e.store.lists.size
  apart : e.given.Pairwise Range.Apart
  counted : ∀ r ∈ e.given, r.len ≤ maxListLength

section Sound

variable {e e' : Editing} {edit : Edit} {edits : List Edit}

theorem sound_start : ({} : Editing).Sound where
  inside := by simp
  apart := .nil
  counted := by simp

theorem Sound.readable (h : e.Sound) (given : r ∈ e.given) : ∃ slots, e.store.list r = .ok slots :=
  e.store.list_of_stop_le (h.inside r given)

/-- Ranges stay good if entries are overwritten or more are added. -/
theorem Sound.grow (h : e.Sound) (room : e.store.lists.size ≤ s'.lists.size) :
    Sound ⟨s', e.given⟩ where
  inside r given := Nat.le_trans (h.inside r given) room
  apart := h.apart
  counted := h.counted

theorem Sound.perm (h : e.Sound) {given : List Range} (same : e.given.Perm given) :
    Sound ⟨e.store, given⟩ where
  inside r mem := h.inside r (same.mem_iff.mpr mem)
  apart := (same.pairwise_iff fun apart => apart.symm).mp h.apart
  counted r mem := h.counted r (same.mem_iff.mpr mem)

theorem Sound.allocList (h : e.Sound) (stored : e.store.allocList slots = .ok (r, s')) :
    Sound ⟨s', r :: e.given⟩ := by
  have room : e.store.lists.size ≤ s'.lists.size := by
    rw [(allocList_lists stored).2, Array.size_append]
    exact Nat.le_add_right _ _
  have older := h.grow room
  refine ⟨fun r' mem => ?_, ?_, fun r' mem => ?_⟩
  · rcases List.mem_cons.mp mem with rfl | mem
    · exact stop_of_allocList stored
    · exact older.inside r' mem
  · have behind (r' : Range) (mem : r' ∈ e.given) : r.Apart r' :=
      apart_of_allocList stored (h.inside r' mem)
    exact List.pairwise_cons.mpr ⟨behind, h.apart⟩
  · rcases List.mem_cons.mp mem with rfl | mem
    · rw [← length_of_list (list_allocList stored)]
      exact (allocList_eq_ok_iff.mp stored).2.1
    · exact h.counted r' mem

end Sound

end Editing

/-! ## Copies as edits -/

/-- The edits that copies are made of. -/
def Edit.IsAddition : Edit → Prop
  | .alloc .. | .allocList _ => True
  | _ => False

/--
The other store came from this one by adding nodes and lists. The ranges that were given
out on the way are those in the new nodes, and the waiting ones that no node has yet.
-/
structure Adds (s : Store) (waiting : List Range) (s' : Store) : Prop where
  nodes : ∃ more, s'.nodes = s.nodes ++ more
  lists : ∃ more, s'.lists = s.lists ++ more
  run : ∃ edits ranges, (∀ edit ∈ edits, edit.IsAddition) ∧
    (∀ given, Editing.Runs ⟨s, given⟩ edits ⟨s', ranges ++ given⟩) ∧
    ranges.Perm (waiting ++ s'.rangesFrom s.size)

namespace Adds

variable {s₁ : Store} {waiting : List Range}

theorem refl (s : Store) : s.Adds [] s where
  nodes := ⟨#[], by simp⟩
  lists := ⟨#[], by simp⟩
  run := ⟨[], [], by simp, fun given => .nil _, by simp [rangesFrom, size, List.drop_of_length_le]⟩

theorem allocList (h : s.Adds waiting s₁) (stored : s₁.allocList slots = .ok (r, s')) :
    s.Adds (r :: waiting) s' := by
  obtain ⟨nodes, lists⟩ := allocList_lists stored
  obtain ⟨more, added⟩ := h.lists
  obtain ⟨edits, ranges, additions, run, same⟩ := h.run
  refine ⟨nodes ▸ h.nodes, ⟨more ++ slots.toArray, ?_⟩, edits ++ [.allocList slots], r :: ranges,
    ?_, fun given => ?_, ?_⟩
  · rw [lists, added, Array.append_assoc]
  · exact List.forall_mem_append.mpr ⟨additions, List.forall_mem_singleton.mpr trivial⟩
  · exact (run given).append (.cons trivial (bind_of_eq stored) (.nil _))
  · have unchanged : s'.rangesFrom s.size = s₁.rangesFrom s.size := by
      rw [rangesFrom, nodes, rangesFrom]
    rw [unchanged]
    exact same.cons r

/-- A new node takes its ranges from those that wait. -/
theorem alloc {kind : NodeKind} (h : s.Adds (kind.lists ++ waiting) s₁) {span : Span} {x : Nat}
    (added : s₁.alloc kind span = .ok (x, s')) : s.Adds waiting s' := by
  obtain ⟨-, -, rfl⟩ := alloc_eq_ok_iff.mp added
  obtain ⟨more, grown⟩ := h.nodes
  obtain ⟨edits, ranges, additions, run, same⟩ := h.run
  refine ⟨⟨more.push ⟨kind, span⟩, ?_⟩, h.lists, edits ++ [.alloc kind span], ranges, ?_,
    fun given => ?_, ?_⟩
  · show s₁.nodes.push _ = _
    rw [grown, Array.append_push]
  · exact List.forall_mem_append.mpr ⟨additions, List.forall_mem_singleton.mpr trivial⟩
  · exact (run given).append (.cons trivial (bind_of_eq added) (.nil _))
  · have last : (s₁.push kind span).rangesFrom s.size = s₁.rangesFrom s.size ++ kind.lists := by
      have old : s.size ≤ s₁.nodes.toList.length := by
        simp [grown, size]
      show ((s₁.nodes.push ⟨kind, span⟩).toList.drop s.size).flatMap _ = _
      rw [Array.toList_push, List.drop_append_of_le_length old, List.flatMap_append]
      simp [rangesFrom]
    rw [last]
    refine same.trans ?_
    rw [List.append_assoc, ← List.append_assoc waiting]
    exact List.perm_append_comm

end Adds

section Leads

variable {α β ν : Type}

theorem ok_of_bind {S : Type} {m : StateT S (Except Fault) α} {k : α → StateT S (Except Fault) β}
    {c c' : S} {b : β} (run : (m >>= k) c = .ok (b, c')) :
    ∃ a c₁, m c = .ok (a, c₁) ∧ k a c₁ = .ok (b, c') := by
  obtain ⟨⟨a, c₁⟩, first, rest⟩ := bind_eq_ok_iff.mp run
  exact ⟨a, c₁, first, rest⟩

/-- If the steps begin at a store as `P` says and do not fault then they end at one as `Q` says. -/
def CopyM.Leads (P : Store → Prop) (m : CopyM α) (Q : α → Store → Prop) : Prop :=
  ∀ c a c', P c.store → m c = .ok (a, c') → Q a c'.store

namespace CopyM.Leads

variable {P : Store → Prop} {Q : α → Store → Prop} {R : β → Store → Prop} {copy : Nat → CopyM Nat}

theorem pure {a : α} (here : ∀ s, P s → Q a s) : Leads P (Pure.pure a) Q := by
  rintro c _ _ start ⟨⟩
  exact here _ start

theorem bind {m : CopyM α} {k : α → CopyM β} (first : Leads P m Q)
    (second : ∀ a, Leads (Q a) (k a) R) : Leads P (m >>= k) R := by
  intro c b c' start run
  obtain ⟨a, c₁, run₁, rest⟩ := ok_of_bind run
  exact second a c₁ b c' (first c a c₁ start run₁) rest

theorem get : Leads P MonadState.get fun _ => P := by
  rintro c _ _ start ⟨⟩
  exact start

theorem lift (x : Except Fault α) : Leads P (liftM x : CopyM α) fun _ => P := by
  intro c a c' start run
  cases x with
  | error => cases run
  | ok =>
    cases run
    exact start

theorem slot (each : ∀ x, Leads P (copy x) fun _ => P) (slot : Slot) :
    Leads P (CopyM.slot copy slot) fun _ => P := by
  cases slot with
  | none => exact .pure fun _ => id
  | some x => exact .bind (each x) fun _ => .pure fun _ => id

theorem mapM {act : α → CopyM β} (each : ∀ a, Leads P (act a) fun _ => P) (list : List α) :
    Leads P (list.mapM act) fun _ => P := by
  induction list with
  | nil => exact .pure fun _ => id
  | cons a rest ih =>
    rw [List.mapM_cons]
    exact .bind (each a) fun _ => .bind ih fun _ => .pure fun _ => id

/-- The parts of a kind are copied one after the other, and the lists come to wait. -/
theorem traverse {P : List Range → Store → Prop} {onSlot : Slot → CopyM Slot}
    {onList : Range → CopyM Range}
    (slots : ∀ slot ranges, Leads (P ranges) (onSlot slot) fun _ => P ranges)
    (lists : ∀ range ranges, Leads (P ranges) (onList range) fun r => P (r :: ranges))
    (k : Kind ν Slot Range) (ranges : List Range) :
    Leads (P ranges) (k.traverse onSlot onSlot onList) fun k' => P (k'.lists ++ ranges) := by
  cases k
  all_goals
    repeat first
      | refine Leads.bind (slots _ _) fun _ => ?_
      | refine Leads.bind (lists _ _) fun _ => ?_
    exact Leads.pure fun _ => id

end CopyM.Leads

end Leads

theorem leads_list {copy : Nat → CopyM Nat} {waiting : List Range}
    (each : ∀ x, CopyM.Leads (s.Adds waiting) (copy x) fun _ => s.Adds waiting) (range : Range) :
    CopyM.Leads (s.Adds waiting) (CopyM.list copy range) fun r => s.Adds (r :: waiting) := by
  refine .bind .get fun c => .bind (.lift _) fun entries => .bind (.mapM (.slot each) entries) ?_
  intro copies c r c' before run
  obtain ⟨⟨range, store⟩, stored, same⟩ := bind_eq_ok_iff.mp run
  cases same
  exact before.allocList stored

theorem leads_copyNode (s : Store) (fuel x : Nat) (waiting : List Range) :
    CopyM.Leads (s.Adds waiting) (copyNode fuel x) fun _ => s.Adds waiting := by
  induction fuel generalizing x waiting with
  | zero =>
    rintro c _ _ _ ⟨⟩
  | succ fuel ih =>
    refine .bind .get fun c => .bind (.lift _) fun node => ?_
    refine .bind (.traverse (fun slot ranges => .slot (ih · ranges) slot)
      (fun range ranges => leads_list (ih · ranges) range) node.kind waiting) fun kind => ?_
    intro c copy c' before run
    obtain ⟨y, c₁, made, rest⟩ := ok_of_bind run
    cases rest
    obtain ⟨⟨_, store⟩, added, same⟩ := bind_eq_ok_iff.mp made
    cases same
    exact before.alloc added

/-- A copy adds nodes and lists. All lists that it stores are in the nodes. -/
theorem adds_deepCopy {copied : Copied} {slot : Slot} (run : s.deepCopy slot = .ok (copied, s')) :
    s.Adds [] s' := by
  obtain ⟨⟨root, c⟩, ran, same⟩ := bind_eq_ok_iff.mp run
  cases same
  exact CopyM.Leads.slot (leads_copyNode s (s.size + 1) · []) slot _ root c (.refl s) ran

/-! ## What a run keeps -/

/-- What is read through a range after an edit that does not fault, if `slots` is read before it. -/
def Edit.overwrite (r : Range) (slots : List Slot) : Edit → List Slot
  | .setListItem range index slot => if range = r then slots.set index slot else slots
  | _ => slots

def overwritten (r : Range) (slots : List Slot) (edits : List Edit) : List Slot :=
  edits.foldl (Edit.overwrite r) slots

namespace Editing

variable {e e' : Editing} {edit : Edit} {edits : List Edit}

/-- Additions give out ranges behind all older ones. -/
theorem Sound.additions (h : e.Sound) (run : Runs e edits e')
    (additions : ∀ edit ∈ edits, edit.IsAddition) : e'.Sound := by
  induction run with
  | nil => exact h
  | @cons e e₁ _ edit rest _ made _ ih =>
    have sound : e₁.Sound := by
      cases edit with
      | alloc kind span =>
        obtain ⟨⟨x, store⟩, added, same⟩ := bind_eq_ok_iff.mp made
        cases same
        obtain ⟨-, -, rfl⟩ := alloc_eq_ok_iff.mp added
        exact h.grow (Nat.le_refl _)
      | allocList slots =>
        obtain ⟨⟨range, store⟩, stored, same⟩ := bind_eq_ok_iff.mp made
        cases same
        exact h.allocList stored
      | _ => cases additions _ List.mem_cons_self
    exact ih sound fun edit mem => additions edit (List.mem_cons_of_mem _ mem)

/-- A copy comes to additions, which give out the ranges in the copied nodes. -/
theorem additions_of_deepCopy {slot : Slot} (made : e.perform (.deepCopy slot) = .ok e') :
    ∃ edits given, (∀ edit ∈ edits, edit.IsAddition) ∧ Runs e edits ⟨e'.store, given⟩ ∧
      given.Perm e'.given := by
  obtain ⟨⟨_, store⟩, copied, same⟩ := bind_eq_ok_iff.mp made
  cases same
  obtain ⟨edits, ranges, additions, run, listed⟩ := (adds_deepCopy copied).run
  exact ⟨edits, _, additions, run e.given, listed.append_right e.given⟩

/-- To put an entry in front of a list that was given out is to store the longer list. -/
theorem perform_prepend (read : e.store.list r = .ok slots) (first : Slot) :
    e.perform (.prepend r first) = e.perform (.allocList (first :: slots)) := by
  show (e.store.prepend r first >>= _) = (e.store.allocList (first :: slots) >>= _)
  rw [prepend_eq_allocList read]

theorem Sound.perform (h : e.Sound) (allowed : e.Allows edit) (made : e.perform edit = .ok e') :
    e'.Sound := by
  have single (adds : edit.IsAddition) : e'.Sound :=
    h.additions (.cons allowed made (.nil e')) (by simpa using adds)
  cases edit with
  | alloc kind span => exact single trivial
  | allocList slots => exact single trivial
  | replace slot kind =>
    obtain ⟨store, replaced, same⟩ := bind_eq_ok_iff.mp made
    cases same
    exact h.grow (Nat.le_of_eq (by rw [lists_replace replaced]))
  | prepend range first =>
    obtain ⟨slots, read⟩ := h.readable allowed
    rw [perform_prepend read] at made
    have run : Runs e [.allocList (first :: slots)] e' := .cons trivial made (.nil e')
    exact h.additions run (by simp [Edit.IsAddition])
  | deepCopy slot =>
    obtain ⟨edits, given, additions, run, same⟩ := additions_of_deepCopy made
    exact (h.additions run additions).perm same
  | setListItem range index slot =>
    obtain ⟨store, written, same⟩ := bind_eq_ok_iff.mp made
    cases same
    obtain ⟨-, -, rfl⟩ := setListItem_eq_ok_iff.mp written
    exact h.grow (by simp)

theorem Sound.run (h : e.Sound) (run : Runs e edits e') : e'.Sound := by
  induction run with
  | nil => exact h
  | cons allowed made _ ih => exact ih (h.perform allowed made)

theorem Sound.apart_of_ne (h : e.Sound) (given : r ∈ e.given) (given' : r' ∈ e.given)
    (ne : r ≠ r') : r.Apart r' :=
  h.apart.forall given given' ne

/-- An edit changes what is read through a range only by overwriting through this range. -/
theorem Sound.list_perform (h : e.Sound) (allowed : e.Allows edit) (made : e.perform edit = .ok e')
    (given : r ∈ e.given) (read : e.store.list r = .ok slots) :
    r ∈ e'.given ∧ e'.store.list r = .ok (edit.overwrite r slots) := by
  cases edit with
  | alloc kind span =>
    obtain ⟨⟨x, store⟩, added, same⟩ := bind_eq_ok_iff.mp made
    cases same
    obtain ⟨-, -, rfl⟩ := alloc_eq_ok_iff.mp added
    exact ⟨given, read⟩
  | replace slot kind =>
    obtain ⟨store, replaced, same⟩ := bind_eq_ok_iff.mp made
    cases same
    exact ⟨given, (list_congr (lists_replace replaced) r).trans read⟩
  | allocList slots =>
    obtain ⟨⟨range, store⟩, stored, same⟩ := bind_eq_ok_iff.mp made
    cases same
    exact ⟨List.mem_cons_of_mem range given, list_of_append (allocList_lists stored).2 read⟩
  | prepend range first =>
    obtain ⟨⟨range, store⟩, stored, same⟩ := bind_eq_ok_iff.mp made
    cases same
    obtain ⟨-, more, added⟩ := prepend_lists stored
    exact ⟨List.mem_cons_of_mem range given, list_of_append added read⟩
  | deepCopy slot =>
    obtain ⟨⟨_, store⟩, copied, same⟩ := bind_eq_ok_iff.mp made
    cases same
    obtain ⟨more, added⟩ := (adds_deepCopy copied).lists
    exact ⟨List.mem_append_right _ given, list_of_append added read⟩
  | setListItem range index slot =>
    obtain ⟨store, written, same⟩ := bind_eq_ok_iff.mp made
    cases same
    refine ⟨given, ?_⟩
    by_cases own : range = r
    · subst own
      rw [Edit.overwrite, if_pos rfl]
      exact list_setListItem written read
    · rw [Edit.overwrite, if_neg own]
      exact list_setListItem_of_apart written (h.apart_of_ne allowed given own) read

theorem Sound.list_run (h : e.Sound) (run : Runs e edits e') (given : r ∈ e.given)
    (read : e.store.list r = .ok slots) :
    r ∈ e'.given ∧ e'.store.list r = .ok (overwritten r slots edits) := by
  induction run generalizing slots with
  | nil => exact ⟨given, read⟩
  | cons allowed made _ ih =>
    obtain ⟨given', read'⟩ := h.list_perform allowed made given read
    exact ih (h.perform allowed made) given' read'

/-! ## What clients can rely on -/

/-- What the clients of a store can rely on. -/
structure Undisturbed (e : Editing) : Prop where
  /-- Later a range reads what it reads now, but for what is overwritten through it. -/
  lasting : ∀ r ∈ e.given, ∃ slots, e.store.list r = .ok slots ∧
    ∀ edits e', Runs e edits e' → r ∈ e'.given ∧ e'.store.list r = .ok (overwritten r slots edits)
  /-- Ranges that were given out by different calls have no position in common. -/
  apart : e.given.Pairwise Range.Apart
  /-- An entry can be overwritten through its range, and no other range shows it. -/
  unseen : ∀ r ∈ e.given, ∀ index slot, index < r.len →
    ∃ e', e.perform (.setListItem r index slot) = .ok e' ∧
      ∀ r' ∈ e.given, r' ≠ r → e'.store.list r' = e.store.list r'
  /--
  A list can be stored exactly if a range can count its entries and start behind all others,
  and is read there ever after.
  -/
  stored : ∀ slots, slots.length ≤ maxListLength → slots = [] ∨ e.store.lists.size ≤ maxIndex →
    ∃ r e₁, e.perform (.allocList slots) = .ok e₁ ∧ e₁.given = r :: e.given ∧
      ∀ edits e', Runs e₁ edits e' → e'.store.list r = .ok (overwritten r slots edits)
  refused : ∀ slots, maxListLength < slots.length →
    ∃ fault, e.perform (.allocList slots) = .error fault ∧
      (e.store.lists.size ≤ maxIndex → fault = .listTooLong slots.length)
  counted : ∀ r ∈ e.given, r.len ≤ maxListLength
  /-- To put an entry in front of a list is to store the longer list. -/
  prepended : ∀ r ∈ e.given, ∀ slots, e.store.list r = .ok slots →
    ∀ first, e.perform (.prepend r first) = e.perform (.allocList (first :: slots))
  /-- A copy stores nodes and lists one by one, and gives out the ranges of all these lists. -/
  copied : ∀ slot e', e.perform (.deepCopy slot) = .ok e' →
    ∃ edits given, (∀ edit ∈ edits, edit.IsAddition) ∧ Runs e edits ⟨e'.store, given⟩ ∧
      given.Perm e'.given

theorem Sound.unseen (h : e.Sound) (given : r ∈ e.given) {index : Nat} (counted : index < r.len)
    (slot : Slot) : ∃ e', e.perform (.setListItem r index slot) = .ok e' ∧
      ∀ r' ∈ e.given, r' ≠ r → e'.store.list r' = e.store.list r' := by
  have inside : r.start + index < e.store.lists.size :=
    Nat.lt_of_lt_of_le (Nat.add_lt_add_left counted _) (h.inside r given)
  have written : e.store.setListItem r index slot = .ok _ :=
    setListItem_eq_ok_iff.mpr ⟨counted, inside, rfl⟩
  refine ⟨_, bind_of_eq written, fun r' given' ne => ?_⟩
  obtain ⟨slots, read⟩ := h.readable given'
  rw [read]
  exact list_setListItem_of_apart written (h.apart_of_ne given given' ne.symm) read

theorem refused (e : Editing) (long : maxListLength < slots.length) :
    ∃ fault, e.perform (.allocList slots) = .error fault ∧
      (e.store.lists.size ≤ maxIndex → fault = .listTooLong slots.length) := by
  rcases Nat.lt_or_ge maxIndex e.store.lists.size with many | few
  · have filled : slots ≠ [] := List.ne_nil_of_length_pos (Nat.zero_lt_of_lt long)
    exact ⟨_, bind_of_error (allocList_of_full filled many), fun few => by omega⟩
  · exact ⟨_, bind_of_error (allocList_of_long few long), fun _ => rfl⟩

theorem Sound.undisturbed (h : e.Sound) : e.Undisturbed where
  lasting r given := by
    obtain ⟨slots, read⟩ := h.readable given
    exact ⟨slots, read, fun edits e' run => h.list_run run given read⟩
  apart := h.apart
  unseen r given index slot counted := h.unseen given counted slot
  stored slots short room := by
    obtain ⟨range, store, appended⟩ := e.store.exists_append slots
    have stored := allocList_eq_ok_iff.mpr ⟨room, short, appended⟩
    refine ⟨range, _, bind_of_eq stored, rfl, fun edits e' run => ?_⟩
    exact ((h.allocList stored).list_run run List.mem_cons_self (list_allocList stored)).2
  refused slots long := e.refused long
  counted := h.counted
  prepended _ _ _ read first := perform_prepend read first
  copied _ _ made := additions_of_deepCopy made

/--
Whatever is done to a store that was empty at first, the ranges that it has given out
stay apart, and each reads the entries that were stored for it and those that were
overwritten through it.
-/
theorem runs_undisturbed (run : Runs {} edits e) : e.Undisturbed :=
  (sound_start.run run).undisturbed

end Editing

end Store

namespace Sample

/--
The list `[a, ]` is stored for an array and gets the array put in front. Then its gap is
filled, the array is copied, and an entry of the copied list is emptied.
-/
def listEdits : List Store.Edit :=
  [.alloc (.ident 1) ⟨1, 2⟩, .allocList [some 0, none], .alloc (.array ⟨0, 2⟩) ⟨0, 5⟩,
    .prepend ⟨0, 2⟩ (some 1), .setListItem ⟨0, 2⟩ 1 (some 0), .deepCopy (some 1),
    .setListItem ⟨5, 2⟩ 0 none, .replace (some 0) .null, .allocList []]

@[inherit_doc listEdits]
def edited : Store.Editing where
  store := {
    nodes := #[
      ⟨.null, ⟨1, 2⟩⟩, ⟨.array ⟨0, 2⟩, ⟨0, 5⟩⟩, ⟨.ident 1, ⟨1, 2⟩⟩, ⟨.ident 1, ⟨1, 2⟩⟩,
      ⟨.array ⟨5, 2⟩, ⟨0, 5⟩⟩]
    lists := #[some 0, some 0, some 1, some 0, none, none, some 3] }
  given := [.empty, ⟨5, 2⟩, ⟨2, 3⟩, ⟨0, 2⟩]

end Sample

open Store.Editing in
/-- The array's list, the longer list and the copied list are read as they were made and edited. -/
theorem Store.Editing.runs_undisturbed_sample :
    Runs {} Sample.listEdits Sample.edited ∧ Sample.edited.Undisturbed ∧
      Sample.edited.given.map Sample.edited.store.list =
        [.ok [], .ok [none, some 3], .ok [some 1, some 0, none], .ok [some 0, some 0]] := by
  have run : Runs {} Sample.listEdits Sample.edited :=
    .cons trivial rfl <| .cons trivial rfl <| .cons trivial rfl <|
      .cons (by exact List.mem_cons_self) rfl <|
      .cons (by exact List.mem_cons_of_mem _ List.mem_cons_self) rfl <| .cons trivial rfl <|
      .cons (by exact List.mem_cons_self) rfl <| .cons trivial rfl <| .cons trivial rfl <| .nil _
  exact ⟨run, runs_undisturbed run, by decide +kernel⟩

end BigLower
