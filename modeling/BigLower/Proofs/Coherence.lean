import BigLower.Proofs.Caching
import BigLower.Proofs.Rooted

/-! # Facts under any use

Facts can be used outside a pass: nodes and bindings are tainted, flags are copied,
and the caching judge is asked, in any order and about any slot. In a store without
cycles the remembered answers stay coherent: an answer "not a big integer" of the
present epoch rests on such answers for the operands. So the caching judge answers
what follows from the present taints, as the plain judge does. There is one way to
break this: to copy a taint to a node that such an answer is remembered for.
-/

namespace BigLower

namespace Store

variable {s : Store}

/-! ## Depth -/

/-- No node is below itself. Children may be absent or outside the store. -/
def Acyclic (s : Store) : Prop :=
  ∀ x, ¬ Relation.TransGen s.IsChild x x

open Classical in
noncomputable def below (s : Store) (x : Nat) : Finset Nat :=
  (Finset.range s.size).filter fun y => Relation.TransGen s.IsChild x y

theorem mem_below_iff {x y : Nat} :
    y ∈ s.below x ↔ y < s.size ∧ Relation.TransGen s.IsChild x y := by
  simp [below]

theorem Acyclic.card_below_lt (acyclic : s.Acyclic) {x y : Nat} (child : s.IsChild x y)
    (inside : y < s.size) : (s.below y).card < (s.below x).card := by
  apply Finset.card_lt_card
  rw [Finset.ssubset_iff]
  refine ⟨y, fun mem => acyclic y (mem_below_iff.mp mem).2, fun z mem => ?_⟩
  rcases Finset.mem_insert.mp mem with rfl | mem
  · exact mem_below_iff.mpr ⟨inside, .single child⟩
  · obtain ⟨bound, path⟩ := mem_below_iff.mp mem
    exact mem_below_iff.mpr ⟨bound, .head child path⟩

theorem card_below_le (s : Store) (x : Nat) : (s.below x).card ≤ s.size := by
  have inside : s.below x ⊆ Finset.range s.size := fun y mem =>
    Finset.mem_range.mpr (mem_below_iff.mp mem).1
  simpa using Finset.card_le_card inside

theorem exists_of_node? {slot : Slot} {n : Node} (found : s.node? slot = some n) :
    ∃ x, slot = some x := by
  cases slot with
  | none => cases found
  | some x => exact ⟨x, rfl⟩

theorem isChild_of_judged {x y : Nat} {n : Node} (found : s.node? (some x) = some n)
    (judged : some y ∈ n.kind.judged) : s.IsChild x y := by
  have own : s.kind (some x) = .ok n.kind := kind_eq_ok_iff.mpr ⟨n, found, rfl⟩
  have parts : .inl (some y) ∈ n.kind.parts ∧ ∀ range, .inr range ∉ n.kind.parts := by
    cases kind : n.kind <;> simp_all [Kind.judged, Kind.parts]
  obtain ⟨children, read⟩ :=
    (exists_children_iff own).mpr fun range mem => (parts.2 range mem).elim
  exact ⟨children, read, (mem_children_iff own read).mpr (.inl parts.1)⟩

theorem Acyclic.judged_below (acyclic : s.Acyclic) {x : Nat} {n : Node}
    (found : s.node? (some x) = some n) {slot : Slot} (judged : slot ∈ n.kind.judged) :
    s.node? slot = none ∨ ∃ y m, slot = some y ∧ s.node? (some y) = some m ∧
      (s.below y).card < (s.below x).card := by
  cases inside : s.node? slot with
  | none => exact .inl rfl
  | some m =>
    obtain ⟨y, rfl⟩ := exists_of_node? inside
    exact .inr ⟨y, m, rfl, inside,
      acyclic.card_below_lt (isChild_of_judged found judged) (node?_lt inside)⟩

end Store

namespace Judge

variable {s : Store} {t : Scopes} {constructor : Name} {f : Facts}

/-! ## What follows from the taints -/

def verdict (s : Store) (t : Scopes) (constructor : Name) (f : Facts) (slot : Slot) : Bool :=
  (plain s t constructor slot f).1

theorem plainWithin_of_absent {slot : Slot} (absent : s.node? slot = none) (fuel : Nat) :
    plainWithin s t constructor f fuel slot = false := by
  cases fuel with
  | zero => rfl
  | succ fuel => rw [plainWithin, absent]

/-- Once the depth suffices, more changes nothing. -/
theorem plainWithin_stable (acyclic : s.Acyclic) {x fuel fuel' : Nat}
    (enough : (s.below x).card < fuel) (enough' : (s.below x).card < fuel') :
    plainWithin s t constructor f fuel (some x) = plainWithin s t constructor f fuel' (some x) := by
  induction fuel generalizing x fuel' with
  | zero => omega
  | succ fuel ih =>
    cases fuel' with
    | zero => omega
    | succ fuel' =>
      cases found : s.node? (some x) with
      | none => rw [plainWithin_of_absent found, plainWithin_of_absent found]
      | some n =>
        have operands : ∀ slot ∈ n.kind.judged, plainWithin s t constructor f fuel slot =
            plainWithin s t constructor f fuel' slot := by
          intro slot judged
          rcases acyclic.judged_below found judged with absent | ⟨y, m, rfl, -, lower⟩
          · rw [plainWithin_of_absent absent, plainWithin_of_absent absent]
          · exact ih (by omega) (by omega)
        rw [plainWithin_succ found, plainWithin_succ found, any_congr_of_mem operands]

theorem verdict_of_absent {slot : Slot} (absent : s.node? slot = none) :
    verdict s t constructor f slot = false :=
  plainWithin_of_absent absent _

/-- The verdict is the taint of a node, or else it follows from the verdicts on the operands. -/
theorem verdict_eq (acyclic : s.Acyclic) {slot : Slot} {n : Node} (found : s.node? slot = some n)
    (t : Scopes) (constructor : Name) (f : Facts) : verdict s t constructor f slot =
      (f.isTainted slot || isSource s t constructor f slot n.kind ||
        n.kind.judged.any (verdict s t constructor f)) := by
  have operands : ∀ part ∈ n.kind.judged,
      plainWithin s t constructor f s.size part = verdict s t constructor f part := by
    intro part judged
    obtain ⟨x, rfl⟩ := Store.exists_of_node? found
    rcases acyclic.judged_below found judged with absent | ⟨y, m, rfl, -, lower⟩
    · rw [plainWithin_of_absent absent, verdict_of_absent absent]
    · have bound := s.card_below_le x
      exact plainWithin_stable acyclic (by omega) (by omega)
  rw [← any_congr_of_mem operands]
  exact plainWithin_succ found t constructor f s.size

/-- Facts after others, where only taints and answers were added that follow from the others. -/
structure Extends (s : Store) (t : Scopes) (constructor : Name) (f f' : Facts) : Prop where
  bindings : ∀ b, f'.isBindingTainted b = f.isBindingTainted b
  tainted : ∀ slot, f.isTainted slot = true → f'.isTainted slot = true
  follows : ∀ slot, f'.isTainted slot = true → f.isTainted slot = true ∨
    verdict s t constructor f slot = true
  known : ∀ slot, f.isKnownUntainted slot = true → f'.isKnownUntainted slot = true

theorem Extends.refl (f : Facts) : Extends s t constructor f f where
  bindings _ := rfl
  tainted _ own := own
  follows _ own := .inl own
  known _ own := own

/-- What follows from the taints is no more once some of it is a taint itself. -/
theorem Extends.verdict_eq (acyclic : s.Acyclic) {f' : Facts} (h : Extends s t constructor f f')
    (slot : Slot) : verdict s t constructor f' slot = verdict s t constructor f slot := by
  cases found : s.node? slot with
  | none => rw [verdict_of_absent found, verdict_of_absent found]
  | some n =>
    obtain ⟨x, rfl⟩ := Store.exists_of_node? found
    induction depth : (s.below x).card using Nat.strong_induction_on generalizing x n with
    | h _ ih =>
      have operands : ∀ slot ∈ n.kind.judged,
          verdict s t constructor f' slot = verdict s t constructor f slot := by
        intro slot judged
        rcases acyclic.judged_below found judged with absent | ⟨y, m, rfl, inside, lower⟩
        · rw [verdict_of_absent absent, verdict_of_absent absent]
        · exact ih _ (depth ▸ lower) m y inside rfl
      have source := @isSource_congr f' f h.bindings s t constructor (some x) n.kind
      have own := Judge.verdict_eq acyclic found t constructor f
      rw [Judge.verdict_eq acyclic found, source, any_congr_of_mem operands]
      cases old : f.isTainted (some x) with
      | true => rw [own, old, h.tainted _ old]
      | false =>
        cases new : f'.isTainted (some x) with
        | false => rw [own, old]
        | true =>
          rcases h.follows _ new with same | big
          · rw [old] at same
            cases same
          · rw [big, Bool.true_or, Bool.true_or]

theorem Extends.trans (acyclic : s.Acyclic) {g h : Facts} (first : Extends s t constructor f g)
    (second : Extends s t constructor g h) : Extends s t constructor f h where
  bindings b := (second.bindings b).trans (first.bindings b)
  tainted slot own := second.tainted slot (first.tainted slot own)
  follows slot own := by
    rcases second.follows slot own with before | big
    · exact first.follows slot before
    · rw [first.verdict_eq acyclic] at big
      exact .inr big
  known slot own := second.known slot (first.known slot own)

end Judge

namespace Facts

variable {s : Store} {t : Scopes} {constructor : Name} {f f' : Facts}

/-! ## Coherent facts -/

/-- Every negative answer of the present epoch rests on negative answers of it. -/
structure Coherent (s : Store) (t : Scopes) (constructor : Name) (f : Facts) : Prop where
  known : ∀ x, f.isKnownUntainted (some x) = true →
    f.isTainted (some x) = false ∧ ∃ n, s.node? (some x) = some n ∧
      Judge.isSource s t constructor f (some x) n.kind = false ∧
        ∀ slot ∈ n.kind.judged, s.node? slot = none ∨ f.isKnownUntainted slot = true
  dated : f.Dated

theorem coherent_empty : Coherent s t constructor {} where
  known x known := by simp [isKnownUntainted] at known
  dated x e read := by simp at read

theorem coherent_of_none (none : ∀ x, f.isKnownUntainted (some x) = false) (dated : f.Dated) :
    Coherent s t constructor f where
  known x known := by
    rw [none x] at known
    cases known
  dated := dated

namespace Coherent

/-- A step that leaves all answers as they are must not taint what there is an answer for. -/
theorem of_known (h : Coherent s t constructor f)
    (bindings : ∀ b, f'.isBindingTainted b = f.isBindingTainted b)
    (same : ∀ slot, f'.isKnownUntainted slot = f.isKnownUntainted slot)
    (untainted : ∀ x, f.isKnownUntainted (some x) = true → f'.isTainted (some x) = false)
    (dated : f'.Dated) : Coherent s t constructor f' where
  known x known := by
    rw [same] at known
    obtain ⟨-, n, found, source, operands⟩ := h.known x known
    refine ⟨untainted x known, n, found, ?_, fun slot judged => ?_⟩
    · rw [Judge.isSource_congr bindings, source]
    · rw [same]
      exact operands slot judged
  dated := dated

theorem verdict_eq_false (h : Coherent s t constructor f) {x : Nat}
    (known : f.isKnownUntainted (some x) = true) :
    Judge.verdict s t constructor f (some x) = false := by
  suffices every : ∀ fuel, Judge.plainWithin s t constructor f fuel (some x) = false from every _
  intro fuel
  induction fuel generalizing x with
  | zero => rfl
  | succ fuel ih =>
    obtain ⟨untainted, n, found, source, operands⟩ := h.known x known
    have none : n.kind.judged.any (Judge.plainWithin s t constructor f fuel) = false := by
      rw [List.any_eq_false]
      intro slot judged
      rcases operands slot judged with absent | known
      · rw [Judge.plainWithin_of_absent absent]
        exact Bool.false_ne_true
      · cases slot with
        | none => cases known
        | some y =>
          rw [ih known]
          exact Bool.false_ne_true
    rw [Judge.plainWithin_succ found, untainted, source, none]
    rfl

/-- Adding flags other than a taint changes no answer. -/
theorem add (h : Coherent s t constructor f) (slot : Slot) {flags : Flags}
    (plain : flags.tainted = false) : Coherent s t constructor (f.add slot flags) := by
  refine h.of_known (fun b => ?_) (fun slot' => f.isKnownUntainted_add slot slot' flags)
    (fun x known => ?_) (h.dated.add slot flags)
  · simp [isBindingTainted]
  · have untainted := (h.known x known).1
    cases slot with
    | none => exact untainted
    | some y => simp [plain, untainted]

/-- Tainting a node makes all answers stale, or there was none for the node. -/
theorem markTainted (h : Coherent s t constructor f) (slot : Slot) :
    Coherent s t constructor (f.markTainted slot) := by
  cases slot with
  | none => simpa [Facts.markTainted, Facts.add] using h
  | some x =>
    rcases isKnownUntainted_markTainted h.dated x with none | ⟨same, unknown⟩
    · exact coherent_of_none none (h.dated.markTainted _)
    · refine h.of_known (fun b => ?_) (fun slot => ?_) (fun y known => ?_) (h.dated.markTainted _)
      · simp [isBindingTainted]
      · cases slot with
        | none => rfl
        | some y => exact same y
      · have untainted := (h.known y known).1
        rw [isTainted_markTainted, untainted, Bool.or_false, beq_eq_false_iff_ne]
        intro here
        cases here
        rw [unknown untainted] at known
        cases known

theorem taintBinding (h : Coherent s t constructor f) (b : Nat) :
    Coherent s t constructor (f.taintBinding b).2 := by
  rcases isKnownUntainted_taintBinding h.dated b with none | ⟨-, same⟩
  · exact coherent_of_none none (h.dated.taintBinding b)
  · rw [same]
    exact h

/-- Copied flags change no answer, if they do not taint what there is an answer for. -/
theorem copyFlags (h : Coherent s t constructor f) {source copy : Slot}
    (clean : f.isKnownUntainted copy = true → f.isTainted source = false) :
    Coherent s t constructor (f.copyFlags source copy) := by
  refine h.of_known (fun b => ?_) (fun slot => f.isKnownUntainted_copyFlags slot source copy)
    (fun x known => ?_) ?_
  · simp [isBindingTainted]
  · have untainted := (h.known x known).1
    unfold Facts.copyFlags
    split
    · exact untainted
    · cases copy with
      | none => exact untainted
      | some y =>
        rw [isTainted_add, untainted, Bool.false_or, Bool.and_eq_false_iff]
        by_cases here : some x = some y
        · rw [here] at known
          exact .inr (clean known)
        · exact .inl (beq_eq_false_iff_ne.mpr here)
  · unfold Facts.copyFlags
    split
    · exact h.dated
    · exact h.dated.add _ _

theorem remember (h : Coherent s t constructor f) {x : Nat}
    (big : Judge.verdict s t constructor f (some x) = true) :
    Judge.Extends s t constructor f (f.markTainted (some x)) where
  bindings b := by simp [isBindingTainted]
  tainted slot own := by rw [isTainted_markTainted, own, Bool.or_true]
  follows slot own := by
    rw [isTainted_markTainted, Bool.or_eq_true, beq_iff_eq] at own
    rcases own with rfl | before
    · exact .inr big
    · exact .inl before
  known slot known := by
    have unknown : f.isKnownUntainted (some x) = false := by
      by_contra before
      rw [h.verdict_eq_false (by simpa using before)] at big
      cases big
    unfold Facts.markTainted
    rw [unknown, Bool.and_false, if_neg (by simp), isKnownUntainted_add, known]

theorem recordUntainted (h : Coherent s t constructor f) {x : Nat} {n : Node}
    (found : s.node? (some x) = some n) (untainted : f.isTainted (some x) = false)
    (source : Judge.isSource s t constructor f (some x) n.kind = false)
    (operands : ∀ slot ∈ n.kind.judged, s.node? slot = none ∨ f.isKnownUntainted slot = true) :
    Coherent s t constructor (f.recordUntainted (some x)) ∧
      Judge.Extends s t constructor f (f.recordUntainted (some x)) := by
  have later {slot : Slot} (known : f.isKnownUntainted slot = true) :
      (f.recordUntainted (some x)).isKnownUntainted slot = true := by
    cases slot with
    | none => cases known
    | some y => exact f.isKnownUntainted_recordUntainted_iff.mpr (.inr known)
  have same (slot : Slot) : (f.recordUntainted (some x)).isTainted slot = f.isTainted slot := by
    simp [isTainted]
  refine ⟨⟨fun y known => ?_, h.dated.recordUntainted x⟩,
    ⟨fun b => rfl, fun slot own => (same slot).trans own, fun slot own => .inl (same slot ▸ own),
      fun slot => later⟩⟩
  rw [same]
  rcases f.isKnownUntainted_recordUntainted_iff.mp known with rfl | before
  · exact ⟨untainted, n, found, source, fun slot judged => (operands slot judged).imp_right later⟩
  · obtain ⟨untainted, m, found, source, operands⟩ := h.known y before
    exact ⟨untainted, m, found, source, fun slot judged => (operands slot judged).imp_right later⟩

end Coherent

/-! ## The caching judge on coherent facts -/

structure Answered (s : Store) (t : Scopes) (constructor : Name) (f f' : Facts) (slot : Slot) :
    Prop where
  coherent : Coherent s t constructor f'
  extends_ : Judge.Extends s t constructor f f'
  known : Judge.verdict s t constructor f slot = false →
    s.node? slot = none ∨ f'.isKnownUntainted slot = true

theorem anySlot_verdict (acyclic : s.Acyclic) (judge : Judge) (slots : List Slot)
    (each : ∀ slot ∈ slots, ∀ f, Coherent s t constructor f →
      ∃ f', judge s t constructor slot f = (Judge.verdict s t constructor f slot, f') ∧
        Answered s t constructor f f' slot)
    (h : Coherent s t constructor f) :
    ∃ f', judge.anySlot s t constructor slots f =
        (slots.any (Judge.verdict s t constructor f), f') ∧
      Coherent s t constructor f' ∧ Judge.Extends s t constructor f f' ∧
        (slots.any (Judge.verdict s t constructor f) = false →
          ∀ slot ∈ slots, s.node? slot = none ∨ f'.isKnownUntainted slot = true) := by
  induction slots generalizing f with
  | nil => exact ⟨f, rfl, h, .refl f, fun _ slot mem => nomatch mem⟩
  | cons slot rest ih =>
    obtain ⟨f₁, first, answered⟩ := each slot List.mem_cons_self f h
    cases big : Judge.verdict s t constructor f slot with
    | true =>
      rw [big] at first
      exact ⟨f₁, by simp [Judge.anySlot, first, big], answered.coherent, answered.extends_,
        by simp [big]⟩
    | false =>
      rw [big] at first
      obtain ⟨f₂, others, coherent, more, known⟩ :=
        ih (fun slot mem => each slot (List.mem_cons_of_mem _ mem)) answered.coherent
      have same : rest.any (Judge.verdict s t constructor f₁) =
          rest.any (Judge.verdict s t constructor f) :=
        any_congr_of_mem fun slot _ => answered.extends_.verdict_eq acyclic slot
      rw [same] at others known
      refine ⟨f₂, by simp [Judge.anySlot, first, big, others], coherent,
        answered.extends_.trans acyclic more, fun none slot' mem => ?_⟩
      rcases List.mem_cons.mp mem with rfl | mem
      · exact (answered.known big).imp_right (more.known slot')
      · exact known (by simpa [big] using none) slot' mem

/-- The caching judge answers by the verdict, if the depth suffices. -/
theorem cachedWithin_verdict (acyclic : s.Acyclic) {fuel : Nat} {slot : Slot}
    (enough : ∀ x, slot = some x → x < s.size → (s.below x).card < fuel)
    (h : Coherent s t constructor f) :
    ∃ f', Judge.cachedWithin s t constructor fuel slot f =
        (Judge.verdict s t constructor f slot, f') ∧ Answered s t constructor f f' slot := by
  induction fuel generalizing slot f with
  | zero =>
    have absent : s.node? slot = none := by
      by_contra present
      obtain ⟨n, found⟩ := Option.ne_none_iff_exists'.mp present
      obtain ⟨x, rfl⟩ := Store.exists_of_node? found
      exact absurd (enough x rfl (Store.node?_lt found)) (by omega)
    exact ⟨f, by rw [Judge.verdict_of_absent absent]; rfl, h, .refl f, fun _ => .inl absent⟩
  | succ fuel ih =>
    cases found : s.node? slot with
    | none =>
      exact ⟨f, by simp [Judge.cachedWithin, found, Judge.verdict_of_absent found], h, .refl f,
        fun _ => .inl found⟩
    | some n =>
      obtain ⟨x, rfl⟩ := Store.exists_of_node? found
      have verdict := Judge.verdict_eq acyclic found t constructor f
      cases tainted : f.isTainted (some x) with
      | true =>
        have big : Judge.verdict s t constructor f (some x) = true := by rw [verdict, tainted]; rfl
        exact ⟨f, by simp [Judge.cachedWithin, found, tainted, big], h, .refl f, by simp [big]⟩
      | false =>
      cases known : f.isKnownUntainted (some x) with
      | true =>
        have small := h.verdict_eq_false known
        exact ⟨f, by simp [Judge.cachedWithin, found, tainted, known, small], h, .refl f,
          fun _ => .inr known⟩
      | false =>
        rw [tainted, Bool.false_or] at verdict
        rw [Judge.cachedWithin_succ found t constructor tainted known]
        cases source : Judge.isSource s t constructor f (some x) n.kind with
        | true =>
          have big : Judge.verdict s t constructor f (some x) = true := by rw [verdict, source]; rfl
          exact ⟨_, by simp [big], h.markTainted _, h.remember big, by simp [big]⟩
        | false =>
          rw [source, Bool.false_or] at verdict
          obtain ⟨f₁, run, coherent, more, operands⟩ := anySlot_verdict acyclic
            (fun s t c => Judge.cachedWithin s t c fuel) n.kind.judged
            (fun slot judged g hg => ih (fun y here inside => by
              subst here
              have lower := acyclic.card_below_lt (Store.isChild_of_judged found judged) inside
              have bound := enough x rfl (Store.node?_lt found)
              omega) hg) h
          rw [run, ← verdict]
          have same := more.verdict_eq acyclic (some x)
          cases big : Judge.verdict s t constructor f (some x) with
          | true =>
            rw [big] at same
            exact ⟨_, by simp, coherent.markTainted _, more.trans acyclic (coherent.remember same),
              by simp [big]⟩
          | false =>
            have untainted : f₁.isTainted (some x) = false := by
              by_contra own
              rcases more.follows _ (by simpa using own) with before | wrong
              · rw [tainted] at before
                cases before
              · rw [big] at wrong
                cases wrong
            rw [← Judge.isSource_congr more.bindings] at source
            obtain ⟨coherent', more'⟩ := coherent.recordUntainted found untainted source
              (operands (by rw [← verdict, big]))
            exact ⟨_, by simp, coherent', more.trans acyclic more',
              fun _ => .inr (f₁.isKnownUntainted_recordUntainted x)⟩

theorem cached_verdict (acyclic : s.Acyclic) (slot : Slot) (h : Coherent s t constructor f) :
    ∃ f', Judge.cached s t constructor slot f = (Judge.verdict s t constructor f slot, f') ∧
      Answered s t constructor f f' slot :=
  cachedWithin_verdict acyclic
    (fun x _ _ => by have := s.card_below_le x; omega) h

end Facts

/-! ## Any use of the facts -/

inductive FactAction where
  | taint (slot : Slot)
  | replace (slot : Slot)
  | settle (slot : Slot)
  | taintBinding (binding : Nat)
  | copy (source target : Slot)
  | judge (slot : Slot)
  | judgeAny (range : Range)

namespace FactAction

def perform (s : Store) (t : Scopes) (constructor : Name) :
    FactAction → Facts → Except Fault (Option Bool × Facts)
  | taint slot, f => .ok (none, f.markTainted slot)
  | replace slot, f => .ok (none, f.markReplaced slot)
  | settle slot, f => .ok (none, f.markSettled slot)
  | taintBinding binding, f => .ok (none, (f.taintBinding binding).2)
  | copy source target, f => .ok (none, f.copyFlags source target)
  | judge slot, f =>
    let (answer, f) := Judge.cached s t constructor slot f
    .ok (some answer, f)
  | judgeAny range, f => do
    let (answer, f) ← Judge.cached.anyEntry s t constructor range f
    return (some answer, f)

def isClean (f : Facts) : FactAction → Bool
  | copy source target => !(f.isKnownUntainted target && f.isTainted source)
  | _ => true

def performAll (s : Store) (t : Scopes) (constructor : Name) :
    List FactAction → Facts → Except Fault Facts
  | [], f => .ok f
  | action :: rest, f => do
    let (_, f) ← action.perform s t constructor f
    performAll s t constructor rest f

def allClean (s : Store) (t : Scopes) (constructor : Name) : List FactAction → Facts → Bool
  | [], _ => true
  | action :: rest, f => action.isClean f &&
    match action.perform s t constructor f with
    | .ok (_, f) => allClean s t constructor rest f
    | .error _ => true

variable {s : Store} {t : Scopes} {constructor : Name} {f f' : Facts} {action : FactAction}
  {answer : Option Bool}

theorem perform_judge (acyclic : s.Acyclic) (h : f.Coherent s t constructor) (slot : Slot) :
    ∃ f', (judge slot).perform s t constructor f =
        .ok (some (Judge.verdict s t constructor f slot), f') ∧
      f'.Coherent s t constructor ∧ Judge.Extends s t constructor f f' := by
  obtain ⟨f', run, answered⟩ := Facts.cached_verdict acyclic slot h
  exact ⟨f', by simp [perform, run], answered.coherent, answered.extends_⟩

theorem perform_judgeAny (acyclic : s.Acyclic) (h : f.Coherent s t constructor) {range : Range}
    {slots : List Slot} (read : s.list range = .ok slots) :
    ∃ f', (judgeAny range).perform s t constructor f =
        .ok (some (slots.any (Judge.verdict s t constructor f)), f') ∧
      f'.Coherent s t constructor ∧ Judge.Extends s t constructor f f' := by
  obtain ⟨f', run, coherent, more, -⟩ := Facts.anySlot_verdict acyclic .cached slots
    (fun slot _ g hg => Facts.cached_verdict acyclic slot hg) h
  have entry : Judge.cached.anyEntry s t constructor range f =
      .ok (slots.any (Judge.verdict s t constructor f), f') := by
    unfold Judge.anyEntry
    rw [bind_of_eq read, run]
    rfl
  exact ⟨f', bind_of_eq entry, coherent, more⟩

theorem extends_of_perform (acyclic : s.Acyclic) (h : f.Coherent s t constructor)
    (asks : (∃ slot, action = judge slot) ∨ ∃ range, action = judgeAny range)
    (run : action.perform s t constructor f = .ok (answer, f')) :
    f'.Coherent s t constructor ∧ Judge.Extends s t constructor f f' := by
  rcases asks with ⟨slot, rfl⟩ | ⟨range, rfl⟩
  · obtain ⟨g, run', kept⟩ := perform_judge acyclic h slot
    cases run.symm.trans run'
    exact kept
  · obtain ⟨slots, read⟩ : ∃ slots, s.list range = .ok slots := by
      obtain ⟨_, entry, -⟩ := bind_eq_ok_iff.mp run
      obtain ⟨slots, read, -⟩ := bind_eq_ok_iff.mp entry
      exact ⟨slots, read⟩
    obtain ⟨g, run', kept⟩ := perform_judgeAny acyclic h read
    cases run.symm.trans run'
    exact kept

/-- A clean action keeps the facts coherent. -/
theorem coherent_of_perform (acyclic : s.Acyclic) (h : f.Coherent s t constructor)
    (clean : action.isClean f = true) (run : action.perform s t constructor f = .ok (answer, f')) :
    f'.Coherent s t constructor := by
  cases action with
  | taint slot =>
    cases run
    exact h.markTainted slot
  | replace slot | settle slot =>
    cases run
    exact h.add slot rfl
  | taintBinding b =>
    cases run
    exact h.taintBinding b
  | copy source target =>
    cases run
    apply h.copyFlags
    intro known
    simpa [isClean, known] using clean
  | judge slot => exact (extends_of_perform acyclic h (.inl ⟨slot, rfl⟩) run).1
  | judgeAny range => exact (extends_of_perform acyclic h (.inr ⟨range, rfl⟩) run).1

theorem coherent_of_performAll (acyclic : s.Acyclic) {actions : List FactAction}
    (h : f.Coherent s t constructor) (clean : allClean s t constructor actions f = true)
    (run : performAll s t constructor actions f = .ok f') : f'.Coherent s t constructor := by
  induction actions generalizing f with
  | nil =>
    cases run
    exact h
  | cons action rest ih =>
    obtain ⟨⟨answer, f₁⟩, first, others⟩ := bind_eq_ok_iff.mp run
    obtain ⟨clean₁, later⟩ := Bool.and_eq_true_iff.mp clean
    rw [first] at later
    exact ih (coherent_of_perform acyclic h clean₁ first) later others

/-- If an action taints a node that is known to be untainted then no answer is left. -/
def Expires (f f' : Facts) : Prop :=
  ∀ slot, f.isKnownUntainted slot = true → f.isTainted slot = false → f'.isTainted slot = true →
    ∀ other, f'.isKnownUntainted other = false

/-- Only a taint of the node itself makes a node tainted that is known to be untainted. -/
theorem expires_of_isClean (acyclic : s.Acyclic) (h : f.Coherent s t constructor)
    (clean : action.isClean f = true) (run : action.perform s t constructor f = .ok (answer, f')) :
    Expires f f' := by
  intro slot known untainted tainted other
  have unchanged (same : f'.isTainted slot = f.isTainted slot) :
      f'.isKnownUntainted other = false := by
    rw [same, untainted] at tainted
    cases tainted
  have asked (more : Judge.Extends s t constructor f f') : f'.isKnownUntainted other = false := by
    rcases more.follows _ tainted with before | big
    · exact unchanged (tainted.trans before.symm)
    · cases slot with
      | none => cases known
      | some x =>
        rw [h.verdict_eq_false known] at big
        cases big
  cases action with
  | taint slot' =>
    cases run
    cases slot' with
    | none => exact unchanged (by simp [Facts.markTainted, Facts.add])
    | some x =>
      by_cases here : slot = some x
      · -- The taint starts a new epoch.
        subst here
        rcases Facts.isKnownUntainted_markTainted h.dated x with none | ⟨-, unknown⟩
        · cases other with
          | none => rfl
          | some y => exact none y
        · rw [unknown untainted] at known
          cases known
      · exact unchanged (by simp [Facts.isTainted_markTainted, here])
  | replace slot' | settle slot' =>
    cases run
    cases slot' with
    | none => exact unchanged rfl
    | some x => exact unchanged (by simp [Facts.markReplaced, Facts.markSettled])
  | taintBinding b =>
    cases run
    exact unchanged (by simp [Facts.isTainted])
  | copy source target =>
    cases run
    cases source with
    | none => exact unchanged rfl
    | some y =>
      cases target with
      | none =>
        apply unchanged
        unfold Facts.copyFlags
        split <;> rfl
      | some x =>
        apply unchanged
        rw [Facts.isTainted_copyFlags]
        by_cases here : slot = some x
        · subst here
          have plain : f.isTainted (some y) = false := by simpa [isClean, known] using clean
          rw [plain, Bool.and_false, Bool.or_false]
        · rw [beq_eq_false_iff_ne.mpr here, Bool.false_and, Bool.or_false]
  | judge slot' => exact asked (extends_of_perform acyclic h (.inl ⟨slot', rfl⟩) run).2
  | judgeAny range => exact asked (extends_of_perform acyclic h (.inr ⟨range, rfl⟩) run).2

/-- A copied taint leaves the answer for the node as it is. -/
theorem isClean_of_expires (h : f.Coherent s t constructor)
    (run : action.perform s t constructor f = .ok (answer, f')) (expires : Expires f f') :
    action.isClean f = true := by
  cases action with
  | copy source target =>
    cases run
    by_contra unclean
    obtain ⟨known, tainted⟩ : f.isKnownUntainted target = true ∧ f.isTainted source = true := by
      simpa [isClean] using unclean
    cases source with
    | none => cases tainted
    | some y =>
      cases target with
      | none => cases known
      | some x =>
        have tainted' : (f.copyFlags (some y) (some x)).isTainted (some x) = true := by
          simp [tainted]
        have forgotten := expires (some x) known (h.known x known).1 tainted' (some x)
        rw [Facts.isKnownUntainted_copyFlags, known] at forgotten
        cases forgotten
  | _ => rfl

end FactAction

/--
After any sequence of actions that are clean when it is their turn, the judge answers
what follows from the present taints, about any slot and any list that can be read:
nothing for what is not in the store, the taint of a node, or else what its kind and
the answers for its operands say. And the clean actions are exactly those after which
no answer is left if they taint a node that was known to be untainted.
-/
theorem Facts.answers_by_taints {s : Store} {t : Scopes} {constructor : Name} (acyclic : s.Acyclic)
    (actions : List FactAction) {f : Facts}
    (run : FactAction.performAll s t constructor actions {} = .ok f)
    (clean : FactAction.allClean s t constructor actions {} = true) :
    (∀ slot, ∃ f', (FactAction.judge slot).perform s t constructor f =
      .ok (some (Judge.plain s t constructor slot f).1, f')) ∧
    (∀ range slots, s.list range = .ok slots →
      ∃ f', (FactAction.judgeAny range).perform s t constructor f =
        .ok (some (slots.any fun slot => (Judge.plain s t constructor slot f).1), f')) ∧
    (∀ slot, s.node? slot = none → (Judge.plain s t constructor slot f).1 = false) ∧
    (∀ slot n, s.node? slot = some n → (Judge.plain s t constructor slot f).1 =
      (f.isTainted slot || Judge.isSource s t constructor f slot n.kind ||
        n.kind.judged.any fun part => (Judge.plain s t constructor part f).1)) ∧
    ∀ action answer f', FactAction.perform s t constructor action f = .ok (answer, f') →
      (action.isClean f = true ↔ FactAction.Expires f f') := by
  have h := FactAction.coherent_of_performAll acyclic Facts.coherent_empty clean run
  refine ⟨fun slot => ?_, fun range slots read => ?_, fun slot absent => ?_,
    fun slot n found => ?_, fun action answer f' step => ?_⟩
  · obtain ⟨f', step, -⟩ := FactAction.perform_judge acyclic h slot
    exact ⟨f', step⟩
  · obtain ⟨f', step, -⟩ := FactAction.perform_judgeAny acyclic h read
    exact ⟨f', step⟩
  · exact Judge.verdict_of_absent absent
  · exact Judge.verdict_eq acyclic found t constructor f
  · exact ⟨fun clean => FactAction.expires_of_isClean acyclic h clean step,
      fun expires => FactAction.isClean_of_expires h step expires⟩

theorem Store.acyclic_of_lt {s : Store} (lt : ∀ x < s.size,
      ∀ y ∈ (s.children (some x)).toOption.getD [], y < x ∨ s.size ≤ y) : s.Acyclic := by
  have child {x y : Nat} (edge : s.IsChild x y) : x < s.size ∧ (y < x ∨ s.size ≤ y) := by
    obtain ⟨children, read, mem⟩ := edge
    obtain ⟨k, own, -⟩ := bind_eq_ok_iff.mp read
    obtain ⟨n, found, -⟩ := kind_eq_ok_iff.mp own
    refine ⟨node?_lt found, lt x (node?_lt found) y ?_⟩
    rw [read]
    exact mem
  have below {x y : Nat} (path : Relation.TransGen s.IsChild x y) :
      x < s.size ∧ (y < x ∨ s.size ≤ y) := by
    induction path with
    | single edge => exact child edge
    | tail _ edge ih =>
      have last := child edge
      omega
  intro x path
  have loop := below path
  omega

namespace Sample

/-- The store of `-a`, of `2n`, and of a sum of `-a` and something outside the store. -/
def operandStore : Store where
  nodes := #[
    ⟨.ident 1, ⟨1, 2⟩⟩, ⟨.unary .neg (some 0), ⟨0, 2⟩⟩, ⟨.bigInt 2, ⟨4, 6⟩⟩,
    ⟨.binary .add (some 1) (some 9), ⟨0, 6⟩⟩]
  lists := #[none, some 9, some 3]

def operandScopes : Scopes where
  references := (∅ : Std.TreeMap Slot Nat).insert (some 0) 0

/-- The sum is judged, flags are set and copied, and at last the binding of `a` is tainted. -/
def cleanActions : List FactAction :=
  [.judge (some 3), .settle (some 3), .copy (some 3) (some 1), .taint (some 9), .judge (some 3),
    .taintBinding 0]

/-- `-a` and `2n` are judged, and the taint of `2n` is copied to `a`. -/
def uncleanActions : List FactAction :=
  [.judge (some 1), .judge (some 2), .copy (some 2) (some 0)]

def factsAfter (actions : List FactAction) : Facts :=
  ((FactAction.performAll operandStore operandScopes 3 actions {}).toOption).getD {}

theorem acyclic_operandStore : operandStore.Acyclic :=
  Store.acyclic_of_lt (by decide +kernel)

end Sample

/-- The sum was no big integer at first, and is one since its identifier has a tainted binding. -/
theorem Facts.answers_by_taints_sample :
    FactAction.performAll Sample.operandStore Sample.operandScopes 3 Sample.cleanActions {} =
      .ok (Sample.factsAfter Sample.cleanActions) ∧
    (∃ f', (FactAction.judge (some 3)).perform Sample.operandStore Sample.operandScopes 3
      (Sample.factsAfter Sample.cleanActions) = .ok (some true, f')) ∧
    ∃ f', (FactAction.judgeAny ⟨0, 3⟩).perform Sample.operandStore Sample.operandScopes 3
      (Sample.factsAfter Sample.cleanActions) = .ok (some true, f') := by
  have run : FactAction.performAll Sample.operandStore Sample.operandScopes 3
      Sample.cleanActions {} = .ok (Sample.factsAfter Sample.cleanActions) := rfl
  obtain ⟨slot, list, -⟩ := answers_by_taints Sample.acyclic_operandStore Sample.cleanActions run
    (by decide +kernel)
  have big : (Judge.plain Sample.operandStore Sample.operandScopes 3 (some 3)
      (Sample.factsAfter Sample.cleanActions)).1 = true := by decide +kernel
  have entry : ([none, some 9, some 3].any fun part => (Judge.plain Sample.operandStore
      Sample.operandScopes 3 part (Sample.factsAfter Sample.cleanActions)).1) = true := by
    decide +kernel
  refine ⟨run, ?_, ?_⟩
  · have answered := slot (some 3)
    rwa [big] at answered
  · have answered := list ⟨0, 3⟩ [none, some 9, some 3] rfl
    rwa [entry] at answered

/--
A copied taint can leave stale answers: `-a` is still answered to be no big integer
when its operand has got the taint of a literal.
-/
theorem Facts.answers_by_taints_copied :
    ¬ ∀ (s : Store) (t : Scopes) (constructor : Name), s.Acyclic →
      ∀ (actions : List FactAction) (f : Facts),
        FactAction.performAll s t constructor actions {} = .ok f →
          ∀ slot, (Judge.cached s t constructor slot f).1 = (Judge.plain s t constructor slot f).1 := by
  intro always
  have same := always Sample.operandStore Sample.operandScopes 3 Sample.acyclic_operandStore
    Sample.uncleanActions (Sample.factsAfter Sample.uncleanActions) rfl (some 1)
  revert same
  decide +kernel

end BigLower
