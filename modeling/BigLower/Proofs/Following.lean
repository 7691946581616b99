import BigLower.Proofs.Likeness
import BigLower.Proofs.Soundness

/-! # Steps that follow each other

One run follows another if it comes to an end whenever the other does, in a related
state. Reading, adding and replacing nodes in one of two stores that are alike is
followed by the same in the other, and so is a deep copy. Tables grow in different
ways when the same texts are interned into them, but names that stand for one text
before stand for one text afterwards.
-/

namespace BigLower

variable {S S' α α' β β' : Type}

/-- If the first steps come to an end then so do the second, and the two ends are as told. -/
def Follows (m : StateT S (Except Fault) α) (m' : StateT S' (Except Fault) α') (q : S) (q' : S')
    (Q : α → α' → S → S' → Prop) : Prop :=
  ∀ a p, m q = .ok (a, p) → ∃ a' p', m' q' = .ok (a', p') ∧ Q a a' p p'

namespace Follows

variable {m : StateT S (Except Fault) α} {m' : StateT S' (Except Fault) α'}
  {k : α → StateT S (Except Fault) β} {k' : α' → StateT S' (Except Fault) β'} {q : S} {q' : S'}
  {P : α → α' → S → S' → Prop} {Q : β → β' → S → S' → Prop}

theorem pure {a : α} {a' : α'} (here : P a a' q q') :
    Follows (Pure.pure a : StateT S (Except Fault) α) (Pure.pure a' : StateT S' (Except Fault) α') q q'
      P := by
  rintro _ _ ⟨⟩
  exact ⟨a', q', rfl, here⟩

theorem bind (first : Follows m m' q q' P)
    (second : ∀ a a' p p', P a a' p p' → Follows (k a) (k' a') p p' Q) :
    Follows (m >>= k) (m' >>= k') q q' Q := by
  intro b r run
  obtain ⟨⟨a, p⟩, run₁, run₂⟩ := bind_eq_ok_iff.mp run
  obtain ⟨a', p', run₁', here⟩ := first a p run₁
  obtain ⟨b', r', run₂', there⟩ := second a a' p p' here b r run₂
  exact ⟨b', r', (bind_of_ok run₁').trans run₂', there⟩

theorem step {a : α} {a' : α'} {p : S} {p' : S'} (run : m q = .ok (a, p)) (run' : m' q' = .ok (a', p'))
    (next : Follows (k a) (k' a') p p' Q) : Follows (m >>= k) (m' >>= k') q q' Q := by
  intro b r rest
  rw [bind_of_ok run] at rest
  rw [bind_of_ok run']
  exact next b r rest

theorem get {k : S → StateT S (Except Fault) β} {k' : S' → StateT S' (Except Fault) β'}
    (next : Follows (k q) (k' q') q q' Q) :
    Follows (MonadState.get >>= k) (MonadState.get >>= k') q q' Q :=
  next

theorem lift {x : Except Fault α} {x' : Except Fault α'} {E : α → α' → Prop}
    (read : ∀ a, x = .ok a → ∃ a', x' = .ok a' ∧ E a a')
    (next : ∀ a a', E a a' → Follows (k a) (k' a') q q' Q) :
    Follows ((liftM x : StateT S (Except Fault) α) >>= k)
      ((liftM x' : StateT S' (Except Fault) α') >>= k') q q' Q := by
  cases x with
  | error e => nofun
  | ok a =>
    obtain ⟨a', rfl, here⟩ := read a rfl
    exact next a a' here

theorem forM {list : List α} {walk : α → StateT S (Except Fault) Unit}
    {walk' : α → StateT S' (Except Fault) Unit} {Tied : S → S' → Prop}
    (each : ∀ a ∈ list, ∀ q q', Tied q q' →
      Follows (walk a) (walk' a) q q' fun _ _ p p' => Tied p p') (start : Tied q q') :
    Follows (list.forM walk) (list.forM walk') q q' fun _ _ p p' => Tied p p' := by
  induction list generalizing q q' with
  | nil => exact .pure start
  | cons a rest ih =>
    refine bind (each a List.mem_cons_self q q' start) fun _ _ p p' tied => ?_
    exact ih (fun b mem => each b (List.mem_cons_of_mem a mem)) tied

end Follows

/-! ## Copies -/

namespace Store

variable {R : Name → Name → Prop} {Z : Region} {ν : Type}

structure Copying.Alike (R : Name → Name → Prop) (Z : Region) (c c' : Copying) : Prop where
  store : c.store.Alike R Z c'.store
  pairs : c'.pairs = c.pairs

def CopyM.Ties (R : Name → Name → Prop) (Z : Region) (m : CopyM α) (Good : α → Prop) : Prop :=
  ∀ c c', Copying.Alike R Z c c' →
    Follows m m c c' fun a a' d d' => a' = a ∧ Good a ∧ Copying.Alike R Z d d'

namespace CopyM.Ties

variable {m : CopyM α} {k : α → CopyM β} {Good : α → Prop} {Fine : β → Prop} {copy : Nat → CopyM Nat}

theorem pure {a : α} (good : Good a) : Ties R Z (Pure.pure a) Good :=
  fun _ _ alike => .pure ⟨rfl, good, alike⟩

theorem bind (first : Ties R Z m Good) (second : ∀ a, Good a → Ties R Z (k a) Fine) :
    Ties R Z (m >>= k) Fine := by
  intro c c' alike
  refine .bind (first c c' alike) ?_
  rintro _ a d d' ⟨rfl, good, alike'⟩
  exact second a good d d' alike'

theorem slot (each : ∀ x, Z.Node x → Ties R Z (copy x) Z.Node) {slot : Slot} (inside : Z.Slot slot) :
    Ties R Z (CopyM.slot copy slot) Z.Slot := by
  cases slot with
  | none => exact .pure nofun
  | some x => exact .bind (each x (inside x rfl)) fun y here => .pure here.slot

theorem allocList {slots : List Slot} (inside : ∀ slot ∈ slots, Z.Slot slot) :
    Ties R Z (CopyM.allocList slots) Z.List := by
  intro c c' alike range d run
  obtain ⟨⟨range, s⟩, stored, same⟩ := bind_eq_ok_iff.mp run
  cases same
  obtain ⟨listed, s', stored', alike'⟩ :=
    alike.store.allocList (fun y mem => inside _ mem y rfl) stored
  exact ⟨range, { c' with store := s' }, bind_of_eq stored', rfl, listed, alike', alike.pairs⟩

theorem mapM {act : α → CopyM β} {list : List α} (each : ∀ a ∈ list, Ties R Z (act a) Fine) :
    Ties R Z (list.mapM act) fun results => ∀ b ∈ results, Fine b := by
  induction list with
  | nil => exact .pure nofun
  | cons a rest ih =>
    rw [List.mapM_cons]
    refine .bind (each a List.mem_cons_self) fun b fine => ?_
    refine .bind (ih fun a' mem => each a' (List.mem_cons_of_mem a mem)) fun others fine' => .pure ?_
    intro c mem
    rcases List.mem_cons.mp mem with rfl | mem
    · exact fine
    · exact fine' c mem

theorem list (each : ∀ x, Z.Node x → Ties R Z (copy x) Z.Node) {range : Range}
    (inside : Z.List range) : Ties R Z (CopyM.list copy range) Z.List := by
  intro c c' alike
  refine .get (.lift (E := fun slots slots' => slots' = slots ∧ ∀ slot ∈ slots, Z.Slot slot) ?_ ?_)
  · intro slots read
    refine ⟨slots, (alike.store.list_eq range).trans read, rfl, ?_⟩
    rintro _ mem y rfl
    exact alike.store.node_of_list inside read mem
  · rintro slots _ ⟨rfl, here⟩
    exact Ties.bind (.mapM fun slot mem => .slot each (here slot mem))
      (fun copies fine => .allocList fine) c c' alike

theorem traverse {k : Kind ν Slot Range} (has : Z.Has k) {onSlot : Slot → CopyM Slot}
    {onList : Range → CopyM Range} (slots : ∀ slot, Z.Slot slot → Ties R Z (onSlot slot) Z.Slot)
    (lists : ∀ range, Z.List range → Ties R Z (onList range) Z.List) :
    Ties R Z (k.traverse onSlot onSlot onList) fun k' => Z.Has k' ∧ k'.names = k.names := by
  have slots' {slot : Slot} (part : .inl slot ∈ k.parts) := slots slot (has.slot part)
  have lists' {range : Range} (part : .inr range ∈ k.parts) := lists range (has.list part)
  cases k
  all_goals
    repeat first
      | refine Ties.bind (slots' (by simp [Kind.parts])) fun _ _ => ?_
      | refine Ties.bind (lists' (by simp [Kind.parts])) fun _ _ => ?_
    refine Ties.pure ⟨?_, rfl⟩
    simp_all [Region.Has, Kind.parts]

end CopyM.Ties

theorem ties_copyNode (fuel : Nat) {x : Nat} (inside : Z.Node x) :
    CopyM.Ties R Z (copyNode fuel x) Z.Node := by
  induction fuel generalizing x with
  | zero => exact fun _ _ _ => nofun
  | succ fuel ih =>
    intro c c' alike
    refine .get (.lift (fun n => alike.store.node_eq inside.slot) ?_)
    rintro ⟨k, _⟩ ⟨k', span⟩ ⟨rfl, like, has⟩
    obtain ⟨both, rfl, rfl, related⟩ := like
    have traversed := CopyM.Ties.traverse (R := R) (Region.has_rename.mp has)
      (fun slot => .slot fun y => ih) fun range => .list fun y => ih
    dsimp only
    rw [Kind.traverse_rename, Kind.traverse_rename, bind_map_left, bind_map_left]
    refine .bind (traversed c c' alike) ?_
    rintro _ copied d d' ⟨rfl, ⟨whole, names⟩, alike'⟩ y e run
    have like : (copied.rename Prod.fst).Like R (copied.rename Prod.snd) :=
      ⟨copied, rfl, rfl, names ▸ related⟩
    obtain ⟨⟨_, d₁⟩, made, rest⟩ := bind_eq_ok_iff.mp run
    obtain ⟨⟨y, s₁⟩, added, same⟩ := bind_eq_ok_iff.mp made
    cases same
    cases rest
    obtain ⟨node, s₁', added', alike₁⟩ :=
      alike'.store.alloc like (Region.has_rename.mpr whole) added
    refine ⟨y, ⟨s₁', d'.pairs.push (x, y)⟩, ?_, rfl, node, alike₁, ?_⟩
    · have made' : CopyM.alloc (copied.rename Prod.snd) span d' = .ok (y, { d' with store := s₁' }) :=
        bind_of_eq added'
      exact bind_of_ok made'
    · rw [alike'.pairs]

/-- What is copied in one of two stores that are alike is copied alike in the other. -/
theorem Alike.deepCopy {s s' s₁ : Store} (h : s.Alike R Z s') {slot : Slot} (inside : Z.Slot slot)
    {copied : Copied} (run : s.deepCopy slot = .ok (copied, s₁)) :
    Z.Slot copied.root ∧ ∃ s₁', s'.deepCopy slot = .ok (copied, s₁') ∧ s₁.Alike R Z s₁' := by
  obtain ⟨⟨root, c⟩, ran, same⟩ := bind_eq_ok_iff.mp run
  cases same
  have tied : CopyM.Ties R Z (CopyM.slot (copyNode (s.size + 1)) slot) Z.Slot :=
    .slot (fun x => ties_copyNode (s.size + 1)) inside
  obtain ⟨_, c', ran', rfl, here, alike⟩ := tied ⟨s, #[]⟩ ⟨s', #[]⟩ ⟨h, rfl⟩ root c ran
  refine ⟨here, c'.store, ?_, alike.store⟩
  unfold Store.deepCopy
  rw [h.size]
  rw [← alike.pairs]
  exact bind_of_eq ran'

end Store

/-! ## Tables -/

namespace Naming

open Tabled (table)

variable {τ τ' : Type} [Naming τ] [Naming τ']

inductive Interns (t : τ) : List String → τ → Prop where
  | nil : Interns t [] t
  | intern {texts : List String} {a : τ} (h : Interns t texts a) (text : String) :
    Interns t (texts ++ [text]) (Naming.intern a text).2

variable [Tabled τ] [Tabled τ']

abbrev Same (a : τ) (b : τ') : Name → Name → Prop := (table a).Agree (table b)

/-- Two clients have interned the same texts, each into a table of its own. -/
structure Abreast (t : τ) (t' : τ') (a : τ) (b : τ') : Prop where
  texts : ∃ texts, Interns t texts a ∧ Interns t' texts b
  left : (table a).Consistent
  right : (table b).Consistent

variable {t a : τ} {t' b : τ'}

theorem Abreast.intern (h : Abreast t t' a b) (text : String) :
    Abreast t t' (Naming.intern a text).2 (Naming.intern b text).2 where
  texts := by
    obtain ⟨texts, left, right⟩ := h.texts
    exact ⟨_, left.intern text, right.intern text⟩
  left := (Tabled.intern_spec a text).2.consistent h.left
  right := (Tabled.intern_spec b text).2.consistent h.right

theorem same_intern (a : τ) (b : τ') (text : String) :
    Same (Naming.intern a text).2 (Naming.intern b text).2 (Naming.intern a text).1
      (Naming.intern b text).1 :=
  ⟨text, (Tabled.intern_spec a text).1, (Tabled.intern_spec b text).1⟩

theorem Same.intern {n n' : Name} (h : Same a b n n') (text : String) :
    Same (Naming.intern a text).2 (Naming.intern b text).2 n n' :=
  h.grows (Tabled.intern_spec a text).2 (Tabled.intern_spec b text).2

theorem Abreast.biUnique (h : Abreast t t' a b) : Relator.BiUnique (Same a b) :=
  Names.biUnique_agree h.left h.right

theorem Abreast.text_eq (h : Abreast t t' a b) {n n' : Name} (same : Same a b n n') :
    Naming.text a n = Naming.text b n' := by
  rw [Tabled.text_eq, Tabled.text_eq]
  exact same.text_eq h.left h.right

end Naming

/-! ## Steps -/

structure LibraryNames.Like (R : Name → Name → Prop) (L L' : LibraryNames) : Prop where
  library : R L.library L'.library
  source : R L.source L'.source
  constructor : R L.constructor L'.constructor
  factory : R L.factory L'.factory
  math : R L.math L'.math

theorem LibraryNames.Like.mono {R R' : Name → Name → Prop} {L L' : LibraryNames} (h : L.Like R L')
    (wider : ∀ a b, R a b → R' a b) : L.Like R' L' :=
  ⟨wider _ _ h.library, wider _ _ h.source, wider _ _ h.constructor, wider _ _ h.factory,
    wider _ _ h.math⟩

namespace Follows

variable {τ τ' : Type} {R : Name → Name → Prop} {Z : Region} {q : Pass τ} {q' : Pass τ'}
  {Q : β → β' → Pass τ → Pass τ' → Prop} (alike : q.store.Alike R Z q'.store)

include alike

theorem node {slot : Slot} (inside : Z.Slot slot) {f : Node → PassM τ β} {f' : Node → PassM τ' β'}
    (next : ∀ k k' span, k.Like R k' → Z.Has k → Follows (f ⟨k, span⟩) (f' ⟨k', span⟩) q q' Q) :
    Follows (PassM.node slot >>= f) (PassM.node slot >>= f') q q' Q := by
  unfold PassM.node
  rw [bind_assoc, bind_assoc]
  refine .get (.lift (fun n => alike.node_eq inside) ?_)
  rintro ⟨k, _⟩ ⟨k', span⟩ ⟨rfl, like, has⟩
  exact next k k' span like has

theorem alloc {k k' : NodeKind} (like : k.Like R k') (has : Z.Has k) (span : Span)
    {f : Nat → PassM τ β} {f' : Nat → PassM τ' β'}
    (next : ∀ x s s', Z.Node x → s.Alike R Z s' →
      Follows (f x) (f' x) { q with store := s } { q' with store := s' } Q) :
    Follows (PassM.alloc k span >>= f) (PassM.alloc k' span >>= f') q q' Q := by
  intro b r run
  obtain ⟨⟨x, p⟩, ran, rest⟩ := bind_eq_ok_iff.mp run
  obtain ⟨⟨_, s⟩, added, same⟩ := bind_eq_ok_iff.mp ran
  cases same
  obtain ⟨node, s', added', alike'⟩ := alike.alloc like has added
  have ran' : PassM.alloc k' span q' = .ok (x, { q' with store := s' }) := bind_of_eq added'
  rw [bind_of_ok ran']
  exact next x s s' node alike' b r rest

theorem allocList {slots : List Slot} (inside : ∀ slot ∈ slots, Z.Slot slot)
    {f : Range → PassM τ β} {f' : Range → PassM τ' β'}
    (next : ∀ range s s', Z.List range → s.Alike R Z s' →
      Follows (f range) (f' range) { q with store := s } { q' with store := s' } Q) :
    Follows (PassM.allocList slots >>= f) (PassM.allocList slots >>= f') q q' Q := by
  intro b r run
  obtain ⟨⟨range, p⟩, ran, rest⟩ := bind_eq_ok_iff.mp run
  obtain ⟨⟨_, s⟩, stored, same⟩ := bind_eq_ok_iff.mp ran
  cases same
  obtain ⟨listed, s', stored', alike'⟩ := alike.allocList (fun y mem => inside _ mem y rfl) stored
  have ran' : PassM.allocList slots q' = .ok (range, { q' with store := s' }) := bind_of_eq stored'
  rw [bind_of_ok ran']
  exact next range s s' listed alike' b r rest

theorem replace {slot : Slot} (inside : Z.Slot slot) {k k' : NodeKind} (like : k.Like R k')
    (has : Z.Has k) {f : Unit → PassM τ β} {f' : Unit → PassM τ' β'}
    (next : ∀ s s', s.Alike R Z s' →
      Follows (f ()) (f' ()) { q with store := s } { q' with store := s' } Q) :
    Follows (PassM.replace slot k >>= f) (PassM.replace slot k' >>= f') q q' Q := by
  intro b r run
  obtain ⟨⟨⟨⟩, p⟩, ran, rest⟩ := bind_eq_ok_iff.mp run
  obtain ⟨s, replaced, same⟩ := bind_eq_ok_iff.mp ran
  cases same
  obtain ⟨s', replaced', alike'⟩ := alike.replace inside like has replaced
  rw [bind_of_ok (PassM.replace_eq replaced')]
  exact next s s' alike' b r rest

end Follows

end BigLower
