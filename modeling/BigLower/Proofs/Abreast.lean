import BigLower.Proofs.Following

/-! # Two passes abreast

The same pass over two stores that are alike, each with a table of its own. Whatever
the first does the second does too, at the same nodes: the facts, the scopes and the
counts stay equal, and the stores stay alike although the tables grow in different
ways, since the same texts are interned on both sides.
-/

namespace BigLower

open Naming (Tabled)

variable {τ τ' : Type} [Naming τ] [Naming τ'] [Tabled τ] [Tabled τ']

/--
Two passes that started with tables `t` and `t'` and have come equally far. They may
differ in their names only, and related names stand for one text.
-/
structure Abreast (Z : Region) (t : τ) (t' : τ') (E E' : Engine) (q : Pass τ) (q' : Pass τ') :
    Prop where
  names : Naming.Abreast t t' q.names q'.names
  library : E.library.Like (Naming.Same q.names q'.names) E'.library
  store : q.store.Alike (Naming.Same q.names q'.names) Z q'.store
  scopes : q'.scopes = q.scopes
  facts : q'.facts = q.facts
  tally : q'.tally = q.tally

/-- Two engines that differ in their names only and remember what they have judged. -/
structure Engine.Twins (E E' : Engine) : Prop where
  memberCalls : E'.memberCalls = E.memberCalls
  left : E.judge = .cached
  right : E'.judge = .cached

def Region.Allows (Z : Region) : Step → Prop
  | .compound _ target value => Z.Slot target ∧ Z.Slot value
  | _ => True

namespace Abreast

variable {Z : Region} {t : τ} {t' : τ'} {E E' : Engine} {q : Pass τ} {q' : Pass τ'}
  (h : Abreast Z t t' E E' q q') {α : Type} {β β' : Type}

include h

theorem withStore {s s' : Store} (alike : s.Alike (Naming.Same q.names q'.names) Z s') :
    Abreast Z t t' E E' { q with store := s } { q' with store := s' } where
  names := h.names
  library := h.library
  store := alike
  scopes := h.scopes
  facts := h.facts
  tally := h.tally

theorem withFacts (f : Facts) : Abreast Z t t' E E' { q with facts := f } { q' with facts := f } where
  names := h.names
  library := h.library
  store := h.store
  scopes := h.scopes
  facts := rfl
  tally := h.tally

theorem withNames (text : String) :
    Abreast Z t t' E E' { q with names := (Naming.intern q.names text).2 }
      { q' with names := (Naming.intern q'.names text).2 } where
  names := h.names.intern text
  library := h.library.mono fun _ _ same => same.intern text
  store := h.store.mono fun _ _ same => same.intern text
  scopes := h.scopes
  facts := h.facts
  tally := h.tally

theorem learn (step : Facts → Facts) :
    Follows (PassM.learn step : PassM τ Unit) (PassM.learn step : PassM τ' Unit) q q'
      fun _ _ p p' => Abreast Z t t' E E' p p' := by
  rintro _ _ ⟨⟩
  refine ⟨(), _, PassM.learn_eq step, ?_⟩
  rw [h.facts]
  exact h.withFacts (step q.facts)

theorem applied (enclosing : Slot) (id : Nat) (rule : Rule) :
    Follows (Engine.applied enclosing id rule : PassM τ Unit)
      (Engine.applied enclosing id rule : PassM τ' Unit) q q'
      fun _ _ p p' => Abreast Z t t' E E' p p' := by
  intro _ p run
  cases (Engine.applied_eq enclosing id rule q).symm.trans run
  refine ⟨(), _, Engine.applied_eq enclosing id rule q', ?_⟩
  exact ⟨h.names, h.library, h.store, h.scopes, by rw [h.facts, h.scopes], by rw [h.tally]⟩

theorem someBig (twins : E.Twins E') {slots : List Slot} (inside : ∀ slot ∈ slots, Z.Slot slot)
    {f : Bool → PassM τ β} {f' : Bool → PassM τ' β'} {Q : β → β' → Pass τ → Pass τ' → Prop}
    (next : ∀ big facts, Follows (f big) (f' big) { q with facts } { q' with facts } Q) :
    Follows (E.someBig slots >>= f) (E'.someBig slots >>= f') q q' Q := by
  have same := h.store.anySlot_eq h.names.biUnique h.library.constructor q.scopes
    (fun y mem => inside _ mem y rfl) q.facts
  intro b r run
  have ran : E'.someBig slots q' =
      .ok ((E.judge.anySlot q.store q.scopes E.library.constructor slots q.facts).1,
        { q' with facts :=
          (E.judge.anySlot q.store q.scopes E.library.constructor slots q.facts).2 }) := by
    show Except.ok ((E'.judge.anySlot q'.store q'.scopes E'.library.constructor slots q'.facts).1,
      { q' with facts :=
        (E'.judge.anySlot q'.store q'.scopes E'.library.constructor slots q'.facts).2 }) = _
    rw [h.scopes, h.facts, twins.right, twins.left, same]
  rw [bind_of_ok ran]
  exact next _ _ b r run

theorem libraryMember {n n' : Name} (property : Naming.Same q.names q'.names n n') (span : Span)
    {f : Nat → PassM τ β} {f' : Nat → PassM τ' β'} {Q : β → β' → Pass τ → Pass τ' → Prop}
    (next : ∀ callee s s', Z.Node callee → s.Alike (Naming.Same q.names q'.names) Z s' →
      Follows (f callee) (f' callee) { q with store := s } { q' with store := s' } Q) :
    Follows (E.libraryMember n span >>= f) (E'.libraryMember n' span >>= f') q q' Q := by
  unfold Engine.libraryMember
  rw [bind_assoc, bind_assoc]
  refine .alloc h.store (Kind.like_ident h.library.library) (Region.has_leaf rfl) span
    fun object s s' here alike => ?_
  exact .alloc alike (Kind.like_member property (some object)) (Region.has_member here.slot) span next

theorem copy {slot : Slot} (inside : Z.Slot slot) {f : Slot → PassM τ β} {f' : Slot → PassM τ' β'}
    {Q : β → β' → Pass τ → Pass τ' → Prop}
    (next : ∀ operand p p', Z.Slot operand → Abreast Z t t' E E' p p' →
      Follows (f operand) (f' operand) p p' Q) :
    Follows (PassM.copy slot >>= f) (PassM.copy slot >>= f') q q' Q := by
  intro b r run
  obtain ⟨⟨operand, p⟩, ran, rest⟩ := bind_eq_ok_iff.mp run
  obtain ⟨⟨copied, s⟩, copy, same⟩ := bind_eq_ok_iff.mp ran
  cases same
  obtain ⟨root, s', copy', alike⟩ := h.store.deepCopy inside copy
  have after : Abreast Z t t' E E'
      { q with
        store := s
        scopes := q.scopes.afterCopy copied.pairs
        facts := q.facts.afterCopy copied.pairs }
      { q' with
        store := s'
        scopes := q'.scopes.afterCopy copied.pairs
        facts := q'.facts.afterCopy copied.pairs } :=
    ⟨h.names, h.library, alike, by rw [h.scopes], by rw [h.facts], h.tally⟩
  rw [bind_of_ok (bind_of_eq copy')]
  exact next _ _ _ root after b r rest

theorem call {id callee : Nat} {args : Range} (inside : Z.Node id) (slot : Z.Node callee)
    (list : Z.List args) (enclosing : Slot) (rule : Rule) :
    Follows (do
        PassM.replace (some id) (.call (some callee) args)
        Engine.applied enclosing id rule : PassM τ Unit)
      (do
        PassM.replace (some id) (.call (some callee) args)
        Engine.applied enclosing id rule : PassM τ' Unit) q q'
      fun _ _ p p' => Abreast Z t t' E E' p p' :=
  .replace h.store inside.slot (Kind.like_nameless rfl) (Region.has_call slot.slot list)
    fun _ _ alike => (h.withStore alike).applied enclosing id rule

/-! ## Rules -/

section Rules

variable {id : Nat} (inside : Z.Node id) (enclosing : Slot)

include inside

theorem lowerLiteral {n n' : Name} (digits : Naming.Same q.names q'.names n n') (span : Span) :
    Follows (E.lowerLiteral enclosing id n span) (E'.lowerLiteral enclosing id n' span) q q'
      fun _ _ p p' => Abreast Z t t' E E' p p' := by
  refine h.libraryMember h.library.factory span fun callee s s' slot alike => ?_
  refine .alloc alike (Kind.like_str digits) (Region.has_leaf rfl) span fun text s s' here alike => ?_
  have slots : ∀ slot ∈ [some text], Z.Slot slot := by simpa using here.slot
  refine .allocList alike slots fun args s s' list alike => ?_
  exact (h.withStore alike).call inside slot list enclosing .literal

theorem lowerConstructor {callee : Slot} {args : Range} (slot : Z.Slot callee) (list : Z.List args) :
    Follows (E.lowerConstructor enclosing id callee args) (E'.lowerConstructor enclosing id callee args)
      q q' fun _ _ p p' => Abreast Z t t' E E' p p' := by
  refine .node h.store slot fun k k' span like has => ?_
  have property : Naming.Same q.names q'.names (E.library.memberFor k) (E'.library.memberFor k') := by
    obtain ⟨both, rfl, rfl, related⟩ := like
    cases both with
    | member object pair => exact related pair List.mem_cons_self
    | _ => exact h.library.factory
  refine h.libraryMember property span fun callee s s' slot alike => ?_
  exact (h.withStore alike).call inside slot list enclosing .constructor

theorem lowerOperation (span : Span) (method : String) {operands : List Slot}
    (slots : ∀ slot ∈ operands, Z.Slot slot) (rule : Rule) :
    Follows (E.lowerOperation enclosing id span method operands rule)
      (E'.lowerOperation enclosing id span method operands rule) q q'
      fun _ _ p p' => Abreast Z t t' E E' p p' := by
  have interned := h.withNames method
  refine .step (PassM.intern_eq method) (PassM.intern_eq method) ?_
  refine interned.libraryMember (Naming.same_intern q.names q'.names method) span
    fun callee s s' slot alike => ?_
  refine .allocList alike slots fun args s s' list alike => ?_
  exact (interned.withStore alike).call inside slot list enclosing rule

theorem tryOperation (twins : E.Twins E') (span : Span) (method? : Option String)
    {operands : List Slot} (slots : ∀ slot ∈ operands, Z.Slot slot) (rule : Rule) :
    Follows (E.tryOperation enclosing id span method? operands rule)
      (E'.tryOperation enclosing id span method? operands rule) q q'
      fun _ _ p p' => Abreast Z t t' E E' p p' := by
  cases method? with
  | none => exact .pure h
  | some method =>
    refine h.someBig twins slots fun big facts => ?_
    cases big with
    | true => exact (h.withFacts facts).lowerOperation inside enclosing span method slots rule
    | false => exact .pure (h.withFacts facts)

theorem lowerCompound (method : String) {target value : Slot} (left : Z.Slot target)
    (right : Z.Slot value) :
    Follows (E.lowerCompound enclosing id method target value)
      (E'.lowerCompound enclosing id method target value) q q'
      fun _ _ p p' => Abreast Z t t' E E' p p' := by
  refine h.copy left fun operand p p' slot h => ?_
  refine .node h.store inside.slot fun k k' span like has => ?_
  have interned := h.withNames method
  refine .step (PassM.intern_eq method) (PassM.intern_eq method) ?_
  refine interned.libraryMember (Naming.same_intern p.names p'.names method) span
    fun callee s s' there alike => ?_
  have slots : ∀ slot ∈ [operand, value], Z.Slot slot := by simpa using ⟨slot, right⟩
  refine .allocList alike slots fun args s s' list alike => ?_
  refine .alloc alike (Kind.like_nameless rfl) (Region.has_call there.slot list) span
    fun call s s' here alike => ?_
  refine .bind ((interned.withStore alike).learn _) fun _ _ r r' h => ?_
  refine .replace h.store inside.slot (Kind.like_nameless rfl) (Region.has_assign left here.slot)
    fun s s' alike => ?_
  exact (h.withStore alike).applied enclosing id .compoundAssign

end Rules

/-! ## Entering and leaving -/

section Walk

variable (twins : E.Twins E') {id : Nat} (inside : Z.Node id) (enclosing : Slot)

include twins inside

theorem enterNode {k k' : NodeKind} (like : k.Like (Naming.Same q.names q'.names) k') (has : Z.Has k)
    (span : Span) :
    Follows (E.enterNode enclosing id ⟨k, span⟩) (E'.enterNode enclosing id ⟨k', span⟩) q q'
      fun step step' p p' => step' = step ∧ Z.Allows step ∧ Abreast Z t t' E E' p p' := by
  obtain ⟨both, rfl, rfl, related⟩ := like
  rw [Region.has_rename] at has
  cases both with
  | bigInt pair =>
    refine .bind (h.lowerLiteral inside enclosing (related pair List.mem_cons_self) span) ?_
    exact fun _ _ p p' h => .pure ⟨rfl, trivial, h⟩
  | call callee args =>
    have slot := has.slot List.mem_cons_self
    have list := has.list (List.mem_cons_of_mem _ List.mem_cons_self)
    have same := h.store.isConstructor_eq h.names.biUnique h.library.constructor slot
    refine .get ?_
    rw [same]
    by_cases constructor : q.store.isConstructor E.library.constructor callee = true
    · simp only [constructor, if_true]
      refine .bind (h.lowerConstructor inside enclosing slot list) ?_
      exact fun _ _ p p' h => .pure ⟨rfl, trivial, h⟩
    · simp only [constructor]
      exact .pure ⟨rfl, trivial, h⟩
  | binary op left right =>
    refine .bind (h.tryOperation inside enclosing twins span op.method? ?_ .binary) ?_
    · exact fun slot mem => has.slot (by simpa [Kind.parts] using mem)
    · exact fun _ _ p p' h => .pure ⟨rfl, trivial, h⟩
  | unary op operand =>
    refine .bind (h.tryOperation inside enclosing twins span op.method? ?_ .unary) ?_
    · exact fun slot mem => has.slot (by simpa [Kind.parts] using mem)
    · exact fun _ _ p p' h => .pure ⟨rfl, trivial, h⟩
  | assign op target value =>
    have left := has.slot List.mem_cons_self
    have right := has.slot (List.mem_cons_of_mem _ List.mem_cons_self)
    unfold Engine.enterNode
    dsimp only [Kind.rename]
    cases op.method? with
    | none => exact .pure ⟨rfl, trivial, h⟩
    | some method =>
      refine h.someBig twins (by simpa using right) fun big facts => .pure ⟨rfl, ?_, h.withFacts facts⟩
      cases big with
      | true => exact ⟨left, right⟩
      | false => trivial
  | _ => exact .pure ⟨rfl, trivial, h⟩

theorem enter : Follows (E.enter enclosing id) (E'.enter enclosing id) q q'
    fun step step' p p' => step' = step ∧ Z.Allows step ∧ Abreast Z t t' E E' p p' := by
  unfold Engine.enter
  refine .get ?_
  dsimp only
  rw [h.facts]
  split
  · exact .pure ⟨rfl, trivial, h⟩
  · refine .lift (fun n => h.store.node_eq inside.slot) ?_
    rintro ⟨k, _⟩ ⟨k', span⟩ ⟨rfl, like, has⟩
    exact h.enterNode twins inside enclosing like has span

omit twins inside in
theorem redirectMember {callee object : Slot} (slot : Z.Slot callee) (slot' : Z.Slot object)
    {n n' : Name} (property : Naming.Same q.names q'.names n n') :
    Follows (E.redirectMember callee object n) (E'.redirectMember callee object n') q q'
      fun _ _ p p' => Abreast Z t t' E E' p p' := by
  have same := h.store.isIdent_eq h.names.biUnique h.library.math slot'
  have text := h.names.text_eq property
  unfold Engine.redirectMember
  refine .get ?_
  rw [same, ← text]
  split
  · let method := mathMethod (Naming.text q.names n)
    have interned := h.withNames method
    refine .step (PassM.intern_eq method) (PassM.intern_eq method) ?_
    refine .replace interned.store slot' (Kind.like_ident interned.library.library)
      (Region.has_leaf rfl) fun s s' alike => ?_
    rw [← bind_pure (PassM.replace callee _ : PassM τ Unit),
      ← bind_pure (PassM.replace callee _ : PassM τ' Unit)]
    refine .replace alike slot (Kind.like_member ?_ object) (Region.has_member slot')
      fun s s' alike => ?_
    · exact Naming.same_intern q.names q'.names method
    · exact .pure (interned.withStore alike)
  · exact .pure h

theorem leave : Follows (E.leave enclosing id) (E'.leave enclosing id) q q'
    fun _ _ p p' => Abreast Z t t' E E' p p' := by
  unfold Engine.leave
  refine .get ?_
  rw [twins.memberCalls, h.facts]
  split
  · refine .lift (fun k => h.store.kind_eq inside.slot) ?_
    rintro _ _ ⟨⟨both, rfl, rfl, -⟩, has⟩
    rw [Region.has_rename] at has
    cases both with
    | call callee args =>
      have slot := has.slot List.mem_cons_self
      have list := has.list (List.mem_cons_of_mem _ List.mem_cons_self)
      refine .lift (fun k => h.store.kind_eq slot) ?_
      rintro _ _ ⟨⟨both, rfl, rfl, related⟩, has⟩
      rw [Region.has_rename] at has
      cases both with
      | member object pair =>
        have object' := has.slot List.mem_cons_self
        have property := related pair List.mem_cons_self
        refine .lift (E := fun slots slots' => slots' = slots ∧ ∀ slot ∈ slots, Z.Slot slot) ?_ ?_
        · intro slots read
          refine ⟨slots, (h.store.list_eq args).trans read, rfl, ?_⟩
          rintro _ mem y rfl
          exact h.store.node_of_list list read mem
        · rintro slots _ ⟨rfl, slots'⟩
          refine h.someBig twins slots' fun big facts => ?_
          cases big with
          | true =>
            refine .bind ((h.withFacts facts).redirectMember slot object' property) ?_
            exact fun _ _ p p' h => h.applied enclosing id .methodCall
          | false => exact .pure (h.withFacts facts)
      | _ => exact .pure h
    | _ => exact .pure h
  · exact .pure h

omit twins in
theorem descend {walk : Slot → Nat → PassM τ Unit} {walk' : Slot → Nat → PassM τ' Unit}
    (each : ∀ inner x, Z.Node x → ∀ p p', Abreast Z t t' E E' p p' →
      Follows (walk inner x) (walk' inner x) p p' fun _ _ r r' => Abreast Z t t' E E' r r') :
    Follows (Engine.descend walk enclosing id) (Engine.descend walk' enclosing id) q q'
      fun _ _ p p' => Abreast Z t t' E E' p p' := by
  have inner : Engine.declaratorBelow q'.store enclosing id =
      Engine.declaratorBelow q.store enclosing id := by
    unfold Engine.declaratorBelow
    rcases h.store.cases_node? inside.slot with ⟨found, found'⟩ | ⟨k, k', span, found, found', like, -⟩
    · rw [found, found']
    · obtain ⟨both, rfl, rfl, -⟩ := like
      rw [found, found']
      cases both <;> rfl
  unfold Engine.descend
  refine .get ?_
  dsimp only
  rw [inner]
  refine .lift (E := fun below below' => below' = below ∧ ∀ y ∈ below, Z.Node y) ?_ ?_
  · intro below read
    obtain ⟨read', nodes⟩ := h.store.children inside read
    exact ⟨below, read', rfl, nodes⟩
  · rintro below _ ⟨rfl, nodes⟩
    exact .forM (fun y mem p p' => each _ y (nodes y mem) p p') h

omit inside in
/-- Two walks stay abreast, however deep they may go. -/
theorem lowerWithin (fuel : Nat) {enclosing : Slot} {id : Nat} (inside : Z.Node id) :
    Follows (E.lowerWithin fuel enclosing id) (E'.lowerWithin fuel enclosing id) q q'
      fun _ _ p p' => Abreast Z t t' E E' p p' := by
  induction fuel generalizing q q' enclosing id with
  | zero => nofun
  | succ fuel ih =>
    have settle (p : Pass τ) (p' : Pass τ') (h : Abreast Z t t' E E' p p') :=
      h.learn fun f => f.markSettled (some id)
    have below {p : Pass τ} {p' : Pass τ'} (h : Abreast Z t t' E E' p p') :
        Follows (Engine.descend (E.lowerWithin fuel) enclosing id)
          (Engine.descend (E'.lowerWithin fuel) enclosing id) p p'
          fun _ _ r r' => Abreast Z t t' E E' r r' :=
      h.descend inside enclosing fun inner x there r r' h => ih h there
    have there : q'.store.contains (some id) = q.store.contains (some id) := by
      simp only [Store.contains, h.store.size]
    unfold Engine.lowerWithin
    refine .get ?_
    rw [there]
    split
    · refine .bind (h.enter twins inside enclosing) ?_
      rintro _ step p p' ⟨rfl, allowed, h⟩
      cases step with
      | done => exact settle p p' h
      | below =>
        refine .bind (below h) fun _ _ r r' h => ?_
        exact .bind (h.leave twins inside enclosing) fun _ _ => settle
      | compound method target value =>
        refine .bind (below h) fun _ _ r r' h => ?_
        exact .bind (h.lowerCompound inside enclosing method allowed.1 allowed.2) fun _ _ => settle
    · exact .pure h

end Walk

end Abreast

end BigLower
