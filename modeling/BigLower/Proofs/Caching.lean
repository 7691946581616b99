import BigLower.Proofs.Judging

/-! # Remembered answers

The caching judge writes its answers into the facts. What it has written stays
true until it is stale: a remembered taint is a big integer by the plain facts,
and an answer "not a big integer" of the present epoch rests on answers of the
same epoch for the operands. So the caching judge answers for the tree as well.
-/

namespace BigLower

namespace Facts

variable (f : Facts)

/-! ## What is known after a step -/

theorem isKnownUntainted_iff {x : Nat} :
    f.isKnownUntainted (some x) = true ↔ f.negatives[x]? = some f.epoch := by
  simp [isKnownUntainted]

theorem isKnownUntainted_recordUntainted_iff {x y : Nat} :
    (f.recordUntainted (some x)).isKnownUntainted (some y) = true ↔
      y = x ∨ f.isKnownUntainted (some y) = true := by
  rw [isKnownUntainted_iff, isKnownUntainted_iff]
  simp only [recordUntainted, Std.TreeMap.getElem?_insert, Nat.compare_eq_eq]
  by_cases same : x = y
  · simp [same]
  · have other : ¬ y = x := fun h => same h.symm
    simp [same, other]

def Dated : Prop :=
  ∀ x e : Nat, f.negatives[x]? = some e → e ≤ f.epoch

variable {f}

theorem Dated.forgotten (h : f.Dated) (x : Nat) : f.nextEpoch.isKnownUntainted (some x) = false := by
  by_contra known
  have read : f.negatives[x]? = some (f.epoch + 1) :=
    f.nextEpoch.isKnownUntainted_iff.mp (by simpa using known)
  have bound := h x (f.epoch + 1) read
  omega

theorem Dated.add (h : f.Dated) (slot : Slot) (flags : Flags) : (f.add slot flags).Dated := by
  intro x e read
  rw [negatives_add] at read
  rw [epoch_add]
  exact h x e read

theorem Dated.nextEpoch (h : f.Dated) : f.nextEpoch.Dated := fun x e read => by
  have := h x e read
  show e ≤ f.epoch + 1
  omega

theorem Dated.markTainted (h : f.Dated) (slot : Slot) : (f.markTainted slot).Dated := by
  unfold Facts.markTainted
  split
  · exact h.nextEpoch.add slot _
  · exact h.add slot _

theorem Dated.recordUntainted (h : f.Dated) (x : Nat) : (f.recordUntainted (some x)).Dated := by
  intro y e read
  simp only [Facts.recordUntainted, Std.TreeMap.getElem?_insert, Nat.compare_eq_eq] at read ⊢
  split at read
  · cases read
    exact Nat.le_refl _
  · exact h y e read

/-- Tainting a node that is known makes all answers stale, tainting another makes none stale. -/
theorem isKnownUntainted_markTainted (h : f.Dated) (x : Nat) :
    (∀ y, (f.markTainted (some x)).isKnownUntainted (some y) = false) ∨
      (∀ y, (f.markTainted (some x)).isKnownUntainted (some y) = f.isKnownUntainted (some y)) ∧
        (f.isTainted (some x) = false → f.isKnownUntainted (some x) = false) := by
  unfold markTainted
  split
  · left
    intro y
    rw [isKnownUntainted_add, h.forgotten y]
  · rename_i kept
    refine .inr ⟨fun y => f.isKnownUntainted_add _ _ _, fun untainted => ?_⟩
    simpa [untainted] using kept

theorem isKnownUntainted_taintBinding (h : f.Dated) (b : Nat) :
    (∀ y, (f.taintBinding b).2.isKnownUntainted (some y) = false) ∨
      f.isBindingTainted b = true ∧ (f.taintBinding b).2 = f := by
  unfold taintBinding
  split
  · rename_i tainted
    exact .inr ⟨tainted, rfl⟩
  · exact .inl fun y => h.forgotten y

theorem Dated.taintBinding (h : f.Dated) (b : Nat) : (f.taintBinding b).2.Dated := by
  unfold Facts.taintBinding
  split
  · exact h
  · exact h.nextEpoch

end Facts

namespace Setup

/-! ## Facts with remembered answers -/

/-- The facts `f` are the plain facts `g` with answers remembered that are still right. -/
structure Remembers (C : Setup) (f g : Facts) : Prop where
  replaced : ∀ slot, f.isReplaced slot = g.isReplaced slot
  settled : ∀ slot, f.isSettled slot = g.isSettled slot
  bindings : ∀ b, f.isBindingTainted b = g.isBindingTainted b
  tainted : ∀ x ∈ C.tree.ids, g.isTainted (some x) = true → f.isTainted (some x) = true
  /-- Every taint is right by the plain facts. -/
  big : ∀ u ∈ C.tree.subtrees, f.isTainted (some u.tag) = true → u.isBig (C.evidence g) = true
  /-- A taint outside the tree is a plain one, or comes from the tree by copying. -/
  stray : ∀ x, x ∉ C.tree.ids → f.isTainted (some x) = true →
    g.isTainted (some x) = true ∨ ∃ u ∈ C.tree.subtrees, u.isBig (C.evidence g) = true
  /-- Every negative answer rests on negative answers. -/
  known : ∀ x, f.isKnownUntainted (some x) = true →
    f.isTainted (some x) = false ∧ ∃ u ∈ C.tree.subtrees, u.tag = x ∧
      u.isSource (C.evidence g) = false ∧
        ∀ v, some v ∈ u.kind.judged → f.isKnownUntainted (some v.tag) = true
  dated : f.Dated

theorem isBig_evidence_mono {C : Setup} {g g' : Facts} {u : Tree Nat Name}
    (below : u ∈ C.tree.subtrees)
    (more : ∀ x ∈ C.tree.ids, g.isTainted (some x) = true → g'.isTainted (some x) = true)
    (wider : ∀ b, g.isBindingTainted b = true → g'.isBindingTainted b = true)
    (big : u.isBig (C.evidence g) = true) : u.isBig (C.evidence g') = true := by
  refine @Tree.isBig_mono (C.evidence g) (C.evidence g') u rfl
    (fun x inside => more x (Tree.mem_ids_of_subtree below inside)) (fun x _ bound => ?_) big
  obtain ⟨b, found, tainted⟩ := (Option.any_eq_true _ _).mp bound
  exact (Option.any_eq_true _ _).mpr ⟨b, found, wider b tainted⟩

namespace Remembers

variable {C : Setup} {f g : Facts}

/-- A negative answer of the present epoch is right. -/
theorem isBig_eq_false (h : C.Remembers f g) {u : Tree Nat Name} (below : u ∈ C.tree.subtrees)
    (known : f.isKnownUntainted (some u.tag) = true) : u.isBig (C.evidence g) = false := by
  induction u using Tree.induction with
  | step u ih =>
    obtain ⟨untainted, u', below', same, source, operands⟩ := h.known u.tag known
    have unique : u' = u := Tree.eq_of_tag_eq C.distinct below' below same
    subst unique
    have plain : g.isTainted (some u'.tag) = false := by
      by_contra tainted
      rw [h.tainted u'.tag (List.mem_map_of_mem below) (by simpa using tainted)] at untainted
      cases untainted
    have none : (u'.kind.judged.any fun part => part.any (Tree.isBig (C.evidence g))) = false := by
      by_contra some
      obtain ⟨v, mem, big⟩ := Tree.any_isBig_iff.mp (by simpa using some)
      have child := Tree.child_of_judged mem
      have inside := Tree.subtrees_trans below (Tree.child_mem_subtrees child)
      rw [ih v child inside (operands v mem)] at big
      cases big
    rw [Tree.isBig_eq, source, none]
    simpa [evidence] using plain

/-- If nothing in the tree is big then no node is tainted that is not by the plain facts. -/
theorem isTainted_eq_false (h : C.Remembers f g)
    (small : ∀ u ∈ C.tree.subtrees, u.isBig (C.evidence g) = false) {x : Nat}
    (plain : g.isTainted (some x) = false) : f.isTainted (some x) = false := by
  by_contra tainted
  rw [Bool.not_eq_false] at tainted
  by_cases inside : x ∈ C.tree.ids
  · obtain ⟨u, below, rfl⟩ := List.mem_map.mp inside
    have big := h.big u below tainted
    simp [small u below] at big
  · rcases h.stray x inside tainted with same | ⟨u, below, big⟩
    · simp [plain] at same
    · simp [small u below] at big

/--
A step of both facts keeps them related if it taints the same nodes of the tree in
both, and if it keeps answers only where nothing that they rest on is tainted.
-/
theorem advance (h : C.Remembers f g) {f' g' : Facts} {marks : Nat → Bool}
    (replaced : ∀ slot, f'.isReplaced slot = g'.isReplaced slot)
    (settled : ∀ slot, f'.isSettled slot = g'.isSettled slot)
    (bindings : ∀ b, f'.isBindingTainted b = g'.isBindingTainted b)
    (tainted : ∀ x, f'.isTainted (some x) = (marks x || f.isTainted (some x)))
    (plain : ∀ x ∈ C.tree.ids, g'.isTainted (some x) = true → marks x || g.isTainted (some x))
    (more : ∀ x, g.isTainted (some x) = true → g'.isTainted (some x) = true)
    (wider : ∀ b, g.isBindingTainted b = true → g'.isBindingTainted b = true)
    (marked : ∀ u ∈ C.tree.subtrees, marks u.tag = true → u.isBig (C.evidence g') = true)
    (stray : ∀ x, x ∉ C.tree.ids → marks x = true → g'.isTainted (some x) = true ∨
      ∃ u ∈ C.tree.subtrees, u.isBig (C.evidence g') = true)
    (answers : (∀ x, f'.isKnownUntainted (some x) = false) ∨
      (∀ x, f'.isKnownUntainted (some x) = f.isKnownUntainted (some x)) ∧
        (∀ x, marks x = true → f.isKnownUntainted (some x) = false) ∧
          ∀ b, g'.isBindingTainted b = g.isBindingTainted b)
    (dated : f'.Dated) : C.Remembers f' g' where
  replaced := replaced
  settled := settled
  bindings := bindings
  tainted x mem big := by
    rw [tainted]
    rcases Bool.or_eq_true_iff.mp (plain x mem big) with new | old
    · simp [new]
    · simp [h.tainted x mem old]
  big u below big := by
    rw [tainted, Bool.or_eq_true] at big
    rcases big with new | old
    · exact marked u below new
    · exact isBig_evidence_mono below (fun x _ => more x) wider (h.big u below old)
  stray x outside big := by
    rw [tainted, Bool.or_eq_true] at big
    rcases big with new | old
    · exact stray x outside new
    · rcases h.stray x outside old with plain | ⟨u, below, big⟩
      · exact .inl (more x plain)
      · exact .inr ⟨u, below, isBig_evidence_mono below (fun x _ => more x) wider big⟩
  known x known := by
    -- Either all answers are stale, or nothing that one rests on has changed.
    rcases answers with none | ⟨same, unmarked, bound⟩
    · rw [none x] at known
      cases known
    · rw [same] at known
      obtain ⟨untainted, u, below, tag, source, operands⟩ := h.known x known
      have unmarked' : marks x = false := by
        by_contra marked
        rw [unmarked x (by simpa using marked)] at known
        cases known
      have same' : g'.isBindingTainted = g.isBindingTainted := funext bound
      refine ⟨by rw [tainted, unmarked', untainted]; rfl, u, below, tag, ?_, fun v mem => ?_⟩
      · simpa [Tree.isSource, evidence, same'] using source
      · rw [same, operands v mem]
  dated := dated

theorem markTainted (h : C.Remembers f g) {u : Tree Nat Name} (below : u ∈ C.tree.subtrees)
    (big : u.isBig (C.evidence g) = true) : C.Remembers (f.markTainted (some u.tag)) g := by
  have unknown : f.isKnownUntainted (some u.tag) = false := by
    by_contra known
    rw [h.isBig_eq_false below (by simpa using known)] at big
    cases big
  refine @advance C f g h _ g (· == u.tag) (fun slot => ?_) (fun slot => ?_) (fun b => ?_)
    (fun x => f.isTainted_markTainted u.tag (some x)) (fun x _ tainted => by simp [tainted])
    (fun x tainted => tainted) (fun b tainted => tainted) (fun v inside same => ?_)
    (fun x _ _ => .inr ⟨u, below, big⟩) ?_ (h.dated.markTainted _)
  · rw [Facts.isReplaced_markTainted, h.replaced]
  · rw [Facts.isSettled_markTainted, h.settled]
  · simpa [Facts.isBindingTainted] using h.bindings b
  · rw [Tree.eq_of_tag_eq C.distinct inside below (by simpa using same)]
    exact big
  · rcases Facts.isKnownUntainted_markTainted h.dated u.tag with none | ⟨same, -⟩
    · exact .inl none
    · refine .inr ⟨same, fun x mark => ?_, fun b => rfl⟩
      have here : x = u.tag := by simpa using mark
      rw [here, unknown]

/-- A negative answer may be remembered, if it rests on such. -/
theorem recordUntainted (h : C.Remembers f g) {u : Tree Nat Name} (below : u ∈ C.tree.subtrees)
    (untainted : f.isTainted (some u.tag) = false) (source : u.isSource (C.evidence g) = false)
    (operands : ∀ v, some v ∈ u.kind.judged → f.isKnownUntainted (some v.tag) = true) :
    C.Remembers (f.recordUntainted (some u.tag)) g where
  replaced slot := by simpa [Facts.isReplaced] using h.replaced slot
  settled slot := by simpa [Facts.isSettled] using h.settled slot
  bindings := h.bindings
  tainted x mem big := by simpa [Facts.isTainted] using h.tainted x mem big
  big v inside big := h.big v inside (by simpa [Facts.isTainted] using big)
  stray x outside big := h.stray x outside (by simpa [Facts.isTainted] using big)
  known x known := by
    have later {y : Nat} (known : f.isKnownUntainted (some y) = true) :
        (f.recordUntainted (some u.tag)).isKnownUntainted (some y) = true :=
      f.isKnownUntainted_recordUntainted_iff.mpr (.inr known)
    rcases f.isKnownUntainted_recordUntainted_iff.mp known with rfl | before
    · exact ⟨by simpa [Facts.isTainted] using untainted, u, below, rfl, source,
        fun v mem => later (operands v mem)⟩
    · obtain ⟨untainted, v, inside, tag, source, operands⟩ := h.known x before
      exact ⟨by simpa [Facts.isTainted] using untainted, v, inside, tag, source,
        fun v mem => later (operands v mem)⟩
  dated := h.dated.recordUntainted u.tag

end Remembers

end Setup

/-! ## The caching judge -/

namespace Judge

section AnySlot

variable (judge : Judge) (s : Store) (t : Scopes) (constructor : Name) (f : Facts)

theorem anySlot_nil : judge.anySlot s t constructor [] f = (false, f) := rfl

theorem anySlot_single (slot : Slot) :
    judge.anySlot s t constructor [slot] f = judge s t constructor slot f := by
  rw [anySlot]
  rcases judge s t constructor slot f with ⟨_ | _, f'⟩ <;> rfl

theorem anySlot_pair (left right : Slot) :
    judge.anySlot s t constructor [left, right] f =
      match judge s t constructor left f with
      | (true, f) => (true, f)
      | (false, f) => judge s t constructor right f := by
  rw [anySlot]
  rcases judge s t constructor left f with ⟨_ | _, f'⟩
  · exact anySlot_single judge s t constructor f' right
  · rfl

theorem anySlot_guard (b : Bool) (slots : List Slot) :
    judge.anySlot s t constructor (if b = true then slots else []) f =
      if b = true then judge.anySlot s t constructor slots f else (false, f) := by
  cases b <;> rfl

end AnySlot

theorem cachedWithin_succ {s : Store} {slot : Slot} {n : Node} (found : s.node? slot = some n)
    (t : Scopes) (constructor : Name) {f : Facts} (untainted : f.isTainted slot = false)
    (unknown : f.isKnownUntainted slot = false) (fuel : Nat) :
    cachedWithin s t constructor (fuel + 1) slot f =
      if isSource s t constructor f slot n.kind then (true, f.markTainted slot)
      else
        let (answer, f') :=
          anySlot (fun s t c => cachedWithin s t c fuel) s t constructor n.kind.judged f
        if answer then (true, f'.markTainted slot) else (false, f'.recordUntainted slot) := by
  obtain ⟨kind, span⟩ := n
  rw [cachedWithin, found]
  cases kind with
  | binary op left right =>
    rcases first : cachedWithin s t constructor fuel left f with ⟨_ | _, f'⟩ <;>
      simp [isSource, Kind.judged, untainted, unknown, anySlot_guard, anySlot_pair, first]
  | _ =>
    simp [isSource, Kind.judged, untainted, unknown, anySlot_guard, anySlot_single, anySlot_nil]

theorem isSource_congr {f g : Facts} (same : ∀ b, f.isBindingTainted b = g.isBindingTainted b)
    {s : Store} {t : Scopes} {constructor : Name} {slot : Slot} (kind : NodeKind) :
    isSource s t constructor f slot kind = isSource s t constructor g slot kind := by
  have bindings : f.isBindingTainted = g.isBindingTainted := funext same
  cases kind <;> simp [isSource, bindings]

theorem cachedWithin_none (s : Store) (t : Scopes) (constructor : Name) (fuel : Nat) (f : Facts) :
    cachedWithin s t constructor fuel none f = (false, f) := by
  cases fuel <;> rfl

section Keeps

variable {P : Facts → Prop} {s : Store} {t : Scopes} {constructor : Name}

theorem anySlot_keeps {judge : Judge} (keeps : ∀ slot f, P f → P (judge s t constructor slot f).2)
    (slots : List Slot) {f : Facts} (h : P f) : P (judge.anySlot s t constructor slots f).2 := by
  induction slots generalizing f with
  | nil => exact h
  | cons slot rest ih =>
    have here := keeps slot f h
    unfold anySlot
    rcases first : judge s t constructor slot f with ⟨_ | _, g⟩
    · rw [first] at here
      exact ih here
    · rw [first] at here
      exact here

/-- The judge taints nodes and records negative answers, and keeps whatever these two keep. -/
theorem cachedWithin_keeps (taint : ∀ f x, P f → P (f.markTainted (some x)))
    (record : ∀ f x, P f → P (f.recordUntainted (some x))) (fuel : Nat) (slot : Slot) (f : Facts)
    (h : P f) : P (cachedWithin s t constructor fuel slot f).2 := by
  induction fuel generalizing slot f with
  | zero => exact h
  | succ fuel ih =>
    cases slot with
    | none => rwa [cachedWithin_none]
    | some x =>
      cases found : s.node? (some x) with
      | none => simpa [cachedWithin, found] using h
      | some n =>
        by_cases tainted : f.isTainted (some x) = true
        · simpa [cachedWithin, found, tainted] using h
        by_cases known : f.isKnownUntainted (some x) = true
        · simpa [cachedWithin, found, tainted, known] using h
        rw [cachedWithin_succ found t constructor (by simpa using tainted) (by simpa using known)]
        have below := @anySlot_keeps P s t constructor (fun s t c => cachedWithin s t c fuel) ih
          n.kind.judged f h
        split
        · exact taint f x h
        · dsimp only
          split
          · exact taint _ x below
          · exact record _ x below

end Keeps

end Judge

namespace Setup

variable {C : Setup} {s : Store} {t : Scopes} {g : Facts}

def Answered (C : Setup) (s : Store) (t : Scopes) (g : Facts) (fuel : Nat) (u : Tree Nat Name) :
    Prop :=
  ∀ f, C.Remembers f g →
    ∃ f', Judge.cachedWithin s t C.library.constructor fuel (some u.tag) f =
        (u.isBig (C.evidence g), f') ∧
      C.Remembers f' g ∧ (u.isBig (C.evidence g) = false →
        f'.isKnownUntainted (some u.tag) = true ∧
          ∀ x, f.isKnownUntainted (some x) = true → f'.isKnownUntainted (some x) = true)

/-- Operands are judged one after the other up to the first big integer. -/
theorem anySlot_answered {fuel : Nat} {parts : List (Tree.Part Nat Name)}
    (operands : ∀ u, some u ∈ parts → C.Answered s t g fuel u) (f : Facts)
    (h : C.Remembers f g) :
    ∃ f', Judge.anySlot (fun s t c => Judge.cachedWithin s t c fuel) s t C.library.constructor
        (parts.map (Option.map Tree.tag)) f =
          (parts.any fun part => part.any (Tree.isBig (C.evidence g)), f') ∧
      C.Remembers f' g ∧ ((parts.any fun part => part.any (Tree.isBig (C.evidence g))) = false →
        (∀ u, some u ∈ parts → f'.isKnownUntainted (some u.tag) = true) ∧
          ∀ x, f.isKnownUntainted (some x) = true → f'.isKnownUntainted (some x) = true) := by
  induction parts generalizing f with
  | nil => exact ⟨f, rfl, h, fun _ => ⟨by simp, fun _ known => known⟩⟩
  | cons part rest ih =>
    have others := ih fun u mem => operands u (List.mem_cons_of_mem part mem)
    cases part with
    | none =>
      obtain ⟨f', run, h', negative⟩ := others f h
      refine ⟨f', ?_, h', ?_⟩
      · simpa [Judge.anySlot, Judge.cachedWithin_none] using run
      · simpa using negative
    | some u =>
      obtain ⟨f₁, first, h₁, negative₁⟩ := operands u List.mem_cons_self f h
      cases big : u.isBig (C.evidence g) with
      | true =>
        rw [big] at first
        exact ⟨f₁, by simp [Judge.anySlot, first, big], h₁, by simp [big]⟩
      | false =>
        rw [big] at first
        obtain ⟨known, kept⟩ := negative₁ big
        obtain ⟨f', run, h', negative⟩ := others f₁ h₁
        refine ⟨f', by simpa [Judge.anySlot, first, big] using run, h', fun none => ?_⟩
        obtain ⟨known', kept'⟩ := negative (by simpa [big] using none)
        refine ⟨fun v mem => ?_, fun x before => kept' x (kept x before)⟩
        rcases List.mem_cons.mp mem with same | mem
        · cases same
          exact kept' u.tag known
        · exact known' v mem

/-- A node without a remembered answer is judged by its operands, and the answer is remembered. -/
theorem Remembers.answer_unknown {f : Facts} (h : C.Remembers f g) {u : Tree Nat Name}
    (below : u ∈ C.tree.subtrees) {n : Node} (found : s.node? (some u.tag) = some n)
    (untainted : f.isTainted (some u.tag) = false)
    (unknown : f.isKnownUntainted (some u.tag) = false)
    (source : Judge.isSource s t C.library.constructor f (some u.tag) n.kind =
      u.isSource (C.evidence g))
    (judged : n.kind.judged = u.kind.judged.map (Option.map Tree.tag))
    (plain : g.isTainted (some u.tag) = false) {fuel : Nat}
    (operands : ∀ v, some v ∈ u.kind.judged → C.Answered s t g fuel v) :
    ∃ f', Judge.cachedWithin s t C.library.constructor (fuel + 1) (some u.tag) f =
        (u.isBig (C.evidence g), f') ∧
      C.Remembers f' g ∧ (u.isBig (C.evidence g) = false →
        f'.isKnownUntainted (some u.tag) = true ∧
          ∀ x, f.isKnownUntainted (some x) = true → f'.isKnownUntainted (some x) = true) := by
  have verdict := u.isBig_eq (C.evidence g)
  rw [show (C.evidence g).tainted u.tag = false from plain, Bool.false_or] at verdict
  rw [Judge.cachedWithin_succ found t _ untainted unknown, source, judged]
  cases own : u.isSource (C.evidence g) with
  | true =>
    have big : u.isBig (C.evidence g) = true := by rw [verdict, own, Bool.true_or]
    exact ⟨_, by simp [big], h.markTainted below big, by simp [big]⟩
  | false =>
    rw [own, Bool.false_or] at verdict
    obtain ⟨f₁, run, h₁, negative⟩ := anySlot_answered operands f h
    rw [run, ← verdict]
    cases big : u.isBig (C.evidence g) with
    | true => exact ⟨_, by simp, h₁.markTainted below big, by simp⟩
    | false =>
      obtain ⟨known, kept⟩ := negative (by rw [← verdict, big])
      have untainted₁ : f₁.isTainted (some u.tag) = false := by
        by_contra tainted
        rw [h₁.big u below (by simpa using tainted)] at big
        cases big
      exact ⟨_, by simp, h₁.recordUntainted below untainted₁ own known, fun _ =>
        ⟨f₁.isKnownUntainted_recordUntainted u.tag, fun x before =>
          f₁.isKnownUntainted_recordUntainted_iff.mpr (.inr (kept x before))⟩⟩

/-- In a state of the pass the caching judge answers for the tree, if the depth suffices. -/
theorem Judgeable.answered (h : C.Judgeable s t g) {u : Tree Nat Name}
    (below : u ∈ C.tree.subtrees) {fuel : Nat} (enough : u.ids.length ≤ fuel) :
    C.Answered s t g fuel u := by
  induction u using Tree.induction generalizing fuel with
  | step u ih =>
    intro f remembers
    have here : u.tag ∈ C.tree.ids := List.mem_map_of_mem below
    cases fuel with
    | zero =>
      rw [Tree.ids_eq] at enough
      simp at enough
    | succ fuel =>
      obtain ⟨n, found, look⟩ := h.look below
      cases tainted : f.isTainted (some u.tag) with
      | true =>
        have big := remembers.big u below tainted
        exact ⟨f, by simp [Judge.cachedWithin, found, tainted, big], remembers, by simp [big]⟩
      | false =>
        cases known : f.isKnownUntainted (some u.tag) with
        | true =>
          have small := remembers.isBig_eq_false below known
          exact ⟨f, by simp [Judge.cachedWithin, found, tainted, known, small], remembers,
            fun _ => ⟨known, fun _ before => before⟩⟩
        | false =>
          have untainted : g.isTainted (some u.tag) = false := by
            by_contra big
            rw [remembers.tainted u.tag here (by simpa using big)] at tainted
            cases tainted
          obtain ⟨source, judged⟩ := look untainted
          have operands : ∀ v, some v ∈ u.kind.judged → C.Answered s t g fuel v := by
            intro v mem
            have child := Tree.child_of_judged mem
            have shorter := Tree.length_ids_lt child
            exact ih v child (Tree.subtrees_trans below (Tree.child_mem_subtrees child)) (by omega)
          exact remembers.answer_unknown below found tainted known
            ((Judge.isSource_congr remembers.bindings n.kind).trans source) judged untainted operands

/-! ## Steps of the pass -/

namespace Remembers

variable {f : Facts}

theorem add (h : C.Remembers f g) (x : Nat) {flags : Flags} (plain : flags.tainted = false) :
    C.Remembers (f.add (some x) flags) (g.add (some x) flags) := by
  refine @advance C f g h _ _ (fun _ => false) (fun slot => ?_) (fun slot => ?_) (fun b => ?_)
    (fun y => by simp [plain]) (fun y _ tainted => by simpa [plain] using tainted)
    (fun y tainted => by simp [tainted])
    (fun b tainted => by simpa [Facts.isBindingTainted] using tainted)
    (fun v _ mark => by cases mark) (fun y _ mark => by cases mark)
    (.inr ⟨fun y => f.isKnownUntainted_add _ _ _, by simp, ?_⟩)
    (h.dated.add _ _)
  · rw [Facts.isReplaced_add, Facts.isReplaced_add, h.replaced]
  · rw [Facts.isSettled_add, Facts.isSettled_add, h.settled]
  · simpa [Facts.isBindingTainted] using h.bindings b
  · simp [Facts.isBindingTainted]

theorem taint (h : C.Remembers f g) (x : Nat) :
    C.Remembers (f.markTainted (some x)) (g.markTainted (some x)) := by
  refine @advance C f g h _ _ (· == x) (fun slot => ?_) (fun slot => ?_) (fun b => ?_)
    (fun y => f.isTainted_markTainted x (some y))
    (fun y _ tainted => by simpa [Facts.isTainted_markTainted] using tainted)
    (fun y tainted => by simp [Facts.isTainted_markTainted, tainted])
    (fun b tainted => by simpa [Facts.isBindingTainted] using tainted) (fun v _ mark => ?_)
    (fun y _ mark => .inl ?_) ?_ (h.dated.markTainted _)
  · rw [Facts.isReplaced_markTainted, Facts.isReplaced_markTainted, h.replaced]
  · rw [Facts.isSettled_markTainted, Facts.isSettled_markTainted, h.settled]
  · simpa [Facts.isBindingTainted] using h.bindings b
  · have here : v.tag = x := by simpa using mark
    simp [Tree.isBig_eq, evidence, Facts.isTainted_markTainted, here]
  · have here : y = x := by simpa using mark
    simp [Facts.isTainted_markTainted, here]
  · rcases Facts.isKnownUntainted_markTainted h.dated x with none | ⟨same, unknown⟩
    · exact .inl none
    · refine .inr ⟨same, fun y mark => ?_, fun b => by simp [Facts.isBindingTainted]⟩
      have here : y = x := by simpa using mark
      subst here
      by_contra known
      have known' : f.isKnownUntainted (some y) = true := by simpa using known
      exact known (unknown (h.known y known').1)

theorem taintBinding (h : C.Remembers f g) (b : Nat) :
    C.Remembers (f.taintBinding b).2 (g.taintBinding b).2 := by
  refine @advance C f g h _ _ (fun _ => false) (fun slot => ?_) (fun slot => ?_) (fun b' => ?_)
    (fun y => by simp [Facts.isTainted]) (fun y _ tainted => by simpa [Facts.isTainted] using tainted)
    (fun y tainted => by simpa [Facts.isTainted] using tainted)
    (fun b' tainted => by simp [Facts.isBindingTainted_taintBinding, tainted])
    (fun v _ mark => by cases mark) (fun y _ mark => by cases mark) ?_ (h.dated.taintBinding b)
  · simpa [Facts.isReplaced] using h.replaced slot
  · simpa [Facts.isSettled] using h.settled slot
  · rw [Facts.isBindingTainted_taintBinding, Facts.isBindingTainted_taintBinding, h.bindings]
  · rcases Facts.isKnownUntainted_taintBinding h.dated b with none | ⟨tainted, same⟩
    · exact .inl none
    · rw [h.bindings] at tainted
      refine .inr ⟨fun y => by rw [same], by simp, fun b' => ?_⟩
      rw [Facts.isBindingTainted_taintBinding]
      by_cases here : b = b'
      · simp [← here, tainted]
      · simp [here]

theorem marked (h : C.Remembers f g) (t : Scopes) (enclosing : Slot) (x : Nat) :
    C.Remembers (f.marked t enclosing x) (g.marked t enclosing x) := by
  have own : C.Remembers ((f.markReplaced (some x)).markTainted (some x))
      ((g.markReplaced (some x)).markTainted (some x)) := (h.add x rfl).taint x
  cases enclosing with
  | none => exact own
  | some d =>
    unfold Facts.marked Facts.taintDeclarator
    cases declared : t.declaredBy (some d) with
    | none => simpa only [declared] using own.taint d
    | some b => simpa only [declared] using (own.taint d).taintBinding b

theorem copied (h : C.Remembers f g) (y x : Nat) (outside : x ∉ C.tree.ids) :
    C.Remembers (f.copyFlags (some y) (some x)) (g.copyFlags (some y) (some x)) := by
  have other {z : Nat} (mem : z ∈ C.tree.ids) : z ≠ x := fun same => outside (same ▸ mem)
  refine @advance C f g h _ _ (fun z => z == x && f.isTainted (some y)) (fun slot => ?_)
    (fun slot => ?_) (fun b => ?_) (fun z => ?_) (fun z mem tainted => ?_)
    (fun z tainted => by simp [tainted])
    (fun b tainted => by simpa [Facts.isBindingTainted] using tainted) (fun v below mark => ?_)
    (fun z _ mark => ?_) (.inr ⟨fun z => f.isKnownUntainted_copyFlags _ _ _, fun z mark => ?_,
      fun b => by simp [Facts.isBindingTainted]⟩) ?_
  · simp [h.replaced]
  · simp [h.settled]
  · simpa [Facts.isBindingTainted] using h.bindings b
  · simp [Bool.or_comm]
  · simpa [other mem] using tainted
  · simp [other (List.mem_map_of_mem below)] at mark
  · obtain ⟨here, tainted⟩ : z = x ∧ f.isTainted (some y) = true := by simpa using mark
    have plain : g.isTainted (some y) = true ∨
        ∃ u ∈ C.tree.subtrees, u.isBig (C.evidence g) = true := by
      by_cases inside : y ∈ C.tree.ids
      · obtain ⟨u, below, rfl⟩ := List.mem_map.mp inside
        exact .inr ⟨u, below, h.big u below tainted⟩
      · exact h.stray y inside tainted
    rcases plain with plain | ⟨u, below, big⟩
    · exact .inl (by simp [here, plain])
    · refine .inr ⟨u, below, isBig_evidence_mono below (fun x _ old => by simp [old]) (fun b old => ?_) big⟩
      simpa [Facts.isBindingTainted] using old
  · by_contra known
    obtain ⟨-, u, below, rfl, -⟩ := h.known z (by simpa using known)
    simp [other (List.mem_map_of_mem below)] at mark
  · unfold Facts.copyFlags
    split
    · exact h.dated
    · exact h.dated.add _ _

end Remembers

/-- The caching judge answers for the tree. -/
theorem faithful_cached (C : Setup) : C.Faithful .cached C.Remembers where
  absent s t c f := Judge.cachedWithin_none s t c (s.size + 1) f
  answer := by
    intro s t f g u judgeable remembers below
    have bound := judgeable.length_le below
    have answered : C.Answered s t g (s.size + 1) u := judgeable.answered below (by omega)
    obtain ⟨f', run, after, -⟩ := answered f remembers
    exact ⟨f', run, after⟩
  replaced h := h.replaced
  settled h := h.settled
  bindings h := h.bindings
  marked h t enclosing x := h.marked t enclosing x
  markSettled h x := h.add x rfl
  added h x := (h.add x rfl).taint x
  copied h y x outside := h.copied y x outside

theorem remembers_empty (C : Setup) : C.Remembers {} {} where
  replaced _ := rfl
  settled _ := rfl
  bindings _ := rfl
  tainted _ _ tainted := tainted
  big u _ tainted := by cases u; simp [Facts.isTainted, Facts.flagsOf] at tainted
  stray x _ tainted := .inl tainted
  known x known := by simp [Facts.isKnownUntainted] at known
  dated x e read := by simp at read

end Setup

end BigLower
