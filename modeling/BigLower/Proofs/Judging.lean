import BigLower.Pass.Run
import BigLower.Proofs.Copying
import BigLower.Proofs.Marks

/-! # Judging trees

Whether the value of a tree may be a big integer is decided by the tree itself,
given which nodes and which bindings are tainted. During a pass the nodes of the
tree change their kinds one by one, but a node that was not replaced still looks
to a judge as it did at the start. So the plain judge answers for the tree.
-/

namespace BigLower

namespace Kind

variable {ν σ ρ σ' ρ' : Type}

/-- The parts whose values decide whether an operation is one of big integers. -/
def judged : Kind ν σ ρ → List σ
  | binary op left right => if op.method?.isSome then [left, right] else []
  | unary op operand => if op.method?.isSome then [operand] else []
  | assign op _ value => if op.method?.isSome then [value] else []
  | _ => []

theorem judged_map (f : σ → σ') (g : ρ → ρ') (k : Kind ν σ ρ) :
    (k.map f g).judged = k.judged.map f := by
  cases k <;> simp only [map, judged, List.map_nil] <;> split <;> rfl

theorem mem_slots_of_judged {k : Kind ν σ (List σ)} {slot : σ} (mem : slot ∈ k.judged) :
    slot ∈ k.slots := by
  cases k <;> simp_all [judged, slots, parts]

end Kind

theorem any_congr_of_mem {α : Type} {list : List α} {p q : α → Bool}
    (same : ∀ a ∈ list, p a = q a) : list.any p = list.any q := by
  rw [Bool.eq_iff_iff, List.any_eq_true, List.any_eq_true]
  exact exists_congr fun a => and_congr_right fun mem => by rw [same a mem]

/-- What is known when a tree is judged: the constructor, and what is tainted by node. -/
structure Evidence where
  constructor : Name
  /-- The tainted nodes. -/
  tainted : Nat → Bool
  /-- The identifiers with a tainted binding. -/
  bound : Nat → Bool

namespace Tree

/-! ## The judgement -/

def isIdent {α : Type} (name : Name) (T : Tree α Name) : Bool :=
  match T.kind with
  | .ident text => text == name
  | _ => false

def isConstructor {α : Type} (constructor : Name) (T : Tree α Name) : Bool :=
  match T.kind with
  | .ident name => name == constructor
  | .member object _ => object.any (isIdent constructor)
  | _ => false

/-- Whether the top is a big integer whatever its operands are. -/
def isSource (e : Evidence) (T : Tree Nat Name) : Bool :=
  match T.kind with
  | .bigInt _ => true
  | .ident _ => e.bound T.tag
  | .call callee _ => callee.any (isConstructor e.constructor)
  | _ => false

mutual

def isBig (e : Evidence) : Tree Nat Name → Bool
  | .node x kind => e.tainted x || isSource e (.node x kind) || kindIsBig e kind

def kindIsBig (e : Evidence) : TreeKind → Bool
  | .binary op left right => op.method?.isSome && (partIsBig e left || partIsBig e right)
  | .unary op operand => op.method?.isSome && partIsBig e operand
  | .assign op _ value => op.method?.isSome && partIsBig e value
  | _ => false

def partIsBig (e : Evidence) : Part Nat Name → Bool
  | none => false
  | some T => isBig e T

end

/-- A tree is judged by its top, and else by its operands. -/
theorem isBig_eq (e : Evidence) (T : Tree Nat Name) :
    T.isBig e =
      (e.tainted T.tag || T.isSource e || T.kind.judged.any fun part => part.any (isBig e)) := by
  have single (part : Part Nat Name) : partIsBig e part = part.any (isBig e) := by
    cases part <;> rfl
  obtain ⟨x, kind⟩ := T
  have operands : kindIsBig e kind = kind.judged.any fun part => part.any (isBig e) := by
    cases kind <;> simp only [kindIsBig, Kind.judged, single, List.any_nil] <;> split <;> simp_all
  rw [isBig, operands]
  rfl

theorem child_of_judged {T u : Tree Nat Name} (mem : some u ∈ T.kind.judged) : u ∈ T.children :=
  List.mem_filterMap.mpr ⟨some u, Kind.mem_slots_of_judged mem, rfl⟩

theorem any_isBig_iff {e : Evidence} {parts : List (Part Nat Name)} :
    (parts.any fun part => part.any (isBig e)) = true ↔ ∃ u, some u ∈ parts ∧ u.isBig e = true := by
  simp only [List.any_eq_true, Option.any_eq_true]
  constructor
  · rintro ⟨_, mem, u, rfl, big⟩
    exact ⟨u, mem, big⟩
  · rintro ⟨u, mem, big⟩
    exact ⟨some u, mem, u, rfl, big⟩

theorem isSource_mono {e e' : Evidence} {T : Tree Nat Name} (same : e.constructor = e'.constructor)
    (bound : e.bound T.tag = true → e'.bound T.tag = true) (source : T.isSource e = true) :
    T.isSource e' = true := by
  unfold isSource at source ⊢
  rw [← same]
  split at source
  · rfl
  · exact bound source
  · exact source
  · cases source

section Judged

variable {e e' : Evidence} {asked : Tree Nat Name → Prop}
  (closed : ∀ u, asked u → ∀ c, some c ∈ u.kind.judged → asked c)
  (same : e.constructor = e'.constructor)

include closed same

/-- More taints among the trees that are asked for make more big integers. -/
theorem isBig_mono_of (tainted : ∀ u, asked u → e.tainted u.tag = true → e'.tainted u.tag = true)
    (bound : ∀ u, asked u → e.bound u.tag = true → e'.bound u.tag = true) {T : Tree Nat Name}
    (here : asked T) (big : T.isBig e = true) : T.isBig e' = true := by
  induction T using induction with
  | step T ih =>
    rw [isBig_eq, Bool.or_eq_true, Bool.or_eq_true] at big ⊢
    rcases big with (own | source) | operands
    · exact .inl (.inl (tainted T here own))
    · exact .inl (.inr (isSource_mono same (bound T here) source))
    · obtain ⟨u, mem, big⟩ := any_isBig_iff.mp operands
      exact .inr (any_isBig_iff.mpr ⟨u, mem, ih u (child_of_judged mem) (closed T here u mem) big⟩)

/-- A judgement depends on the taints of the trees that are asked for alone. -/
theorem isBig_congr_of (tainted : ∀ u, asked u → e.tainted u.tag = e'.tainted u.tag)
    (bound : ∀ u, asked u → e.bound u.tag = e'.bound u.tag) {T : Tree Nat Name} (here : asked T) :
    T.isBig e = T.isBig e' := by
  rw [Bool.eq_iff_iff]
  constructor
  · exact isBig_mono_of closed same (fun u hu => by simp [tainted u hu])
      (fun u hu => by simp [bound u hu]) here
  · exact isBig_mono_of closed same.symm (fun u hu => by simp [tainted u hu])
      (fun u hu => by simp [bound u hu]) here

end Judged

theorem subtree_of_judged {T u c : Tree Nat Name} (below : u ∈ T.subtrees)
    (mem : some c ∈ u.kind.judged) : c ∈ T.subtrees :=
  subtrees_trans below (child_mem_subtrees (child_of_judged mem))

theorem isBig_mono {e e' : Evidence} (T : Tree Nat Name) (same : e.constructor = e'.constructor)
    (tainted : ∀ x ∈ T.ids, e.tainted x = true → e'.tainted x = true)
    (bound : ∀ x ∈ T.ids, e.bound x = true → e'.bound x = true) (big : T.isBig e = true) :
    T.isBig e' = true :=
  isBig_mono_of (fun _ below _ mem => subtree_of_judged below mem) same
    (fun u below => tainted u.tag (List.mem_map_of_mem below))
    (fun u below => bound u.tag (List.mem_map_of_mem below)) T.self_mem_subtrees big

theorem isBig_congr {e e' : Evidence} (T : Tree Nat Name) (same : e.constructor = e'.constructor)
    (tainted : ∀ x ∈ T.ids, e.tainted x = e'.tainted x)
    (bound : ∀ x ∈ T.ids, e.bound x = e'.bound x) : T.isBig e = T.isBig e' :=
  isBig_congr_of (fun _ below _ mem => subtree_of_judged below mem) same
    (fun u below => tainted u.tag (List.mem_map_of_mem below))
    (fun u below => bound u.tag (List.mem_map_of_mem below)) T.self_mem_subtrees

end Tree

/-! ## Judges during a pass -/

def Tree.CalleesPresent (T : Tree Nat Name) : Prop :=
  ∀ u ∈ T.subtrees, ∀ callee args, u.kind = .call callee args → callee.isSome

/-- A pass before its first step, with the tree that it is going to walk over. -/
structure Setup where
  library : LibraryNames
  memberCalls : Bool
  scopes : Scopes
  store : Store
  tree : Tree Nat Name
  holds : store.Holds tree
  distinct : tree.ids.Nodup
  fit : tree.ListsFit
  callees : tree.CalleesPresent
  unreferenced : ∀ x, store.size ≤ x → scopes.bindingOf (some x) = none

namespace Tree

/-- What the store may say of a node that was not replaced: names can have changed. -/
inductive SeenAs (u : Tree Nat Name) : NodeKind → Prop where
  | same (range : Range) : SeenAs u (u.kind.map (Option.map tag) fun _ => range)
  | ident {old : Name} (new : Name) : u.kind = .ident old → SeenAs u (.ident new)
  | member {object : Part Nat Name} {old : Name} (new : Name) :
      u.kind = .member object old → SeenAs u (.member (object.map tag) new)

theorem SeenAs.judged {u : Tree Nat Name} {k : NodeKind} (h : u.SeenAs k) :
    k.judged = u.kind.judged.map (Option.map tag) := by
  cases h with
  | same range => exact Kind.judged_map _ _ u.kind
  | ident new kind => simp [kind, Kind.judged]
  | member new kind => simp [kind, Kind.judged]

end Tree

namespace Setup

def engine (C : Setup) (judge : Judge) : Engine where
  library := C.library
  memberCalls := C.memberCalls
  judge := judge

def evidence (C : Setup) (f : Facts) : Evidence where
  constructor := C.library.constructor
  tainted x := f.isTainted (some x)
  bound x := (C.scopes.bindingOf (some x)).any f.isBindingTainted

/-- A state of the pass in which the tree can still be judged from the store. -/
structure Judgeable (C : Setup) (s : Store) (t : Scopes) (f : Facts) : Prop where
  present : ∀ x ∈ C.tree.ids, x < s.size
  seen : ∀ u ∈ C.tree.subtrees, f.isReplaced (some u.tag) = false →
    ∃ k span, s.node? (some u.tag) = some ⟨k, span⟩ ∧ u.SeenAs k
  constructors : ∀ u ∈ C.tree.subtrees, f.isReplaced (some u.tag) = false →
    ∀ callee args, u.kind = .call callee args →
      s.isConstructor C.library.constructor (callee.map Tree.tag) =
        callee.any (Tree.isConstructor C.library.constructor)
  references : ∀ x ∈ C.tree.ids, t.bindingOf (some x) = C.scopes.bindingOf (some x)
  tainted : ∀ x ∈ C.tree.ids, f.isReplaced (some x) = true → f.isTainted (some x) = true

end Setup

namespace Judge

def isSource (s : Store) (t : Scopes) (constructor : Name) (f : Facts) (slot : Slot) :
    NodeKind → Bool
  | .bigInt _ => true
  | .ident _ => (t.bindingOf slot).any f.isBindingTainted
  | .call callee _ => s.isConstructor constructor callee
  | _ => false

theorem plainWithin_succ {s : Store} {slot : Slot} {n : Node} (found : s.node? slot = some n)
    (t : Scopes) (constructor : Name) (f : Facts) (fuel : Nat) :
    plainWithin s t constructor f (fuel + 1) slot =
      (f.isTainted slot || isSource s t constructor f slot n.kind ||
        n.kind.judged.any (plainWithin s t constructor f fuel)) := by
  have guarded (b : Bool) (slots : List Slot) (p : Slot → Bool) :
      (if b = true then slots else []).any p = (b && slots.any p) := by
    cases b <;> rfl
  obtain ⟨kind, span⟩ := n
  rw [plainWithin, found]
  cases kind <;> simp [isSource, Kind.judged, guarded]

theorem plainWithin_none (s : Store) (t : Scopes) (constructor : Name) (f : Facts) (fuel : Nat) :
    plainWithin s t constructor f fuel none = false := by
  cases fuel <;> rfl

end Judge

namespace Setup

variable {C : Setup} {s : Store} {t : Scopes} {f : Facts} {u : Tree Nat Name}

/-- What can be seen of a node that was not replaced makes it a big integer as in the tree. -/
theorem Judgeable.isSource (h : C.Judgeable s t f) (below : u ∈ C.tree.subtrees)
    (kept : f.isReplaced (some u.tag) = false) {k : NodeKind} (seen : u.SeenAs k) :
    Judge.isSource s t C.library.constructor f (some u.tag) k = u.isSource (C.evidence f) := by
  have reference := h.references u.tag (List.mem_map_of_mem below)
  have call := h.constructors u below kept
  unfold Tree.isSource
  cases seen with
  | same range =>
    cases kind : u.kind with
    | call callee args => exact call callee args kind
    | _ => simp [Judge.isSource, Kind.map, evidence, reference]
  | ident new kind => simp [Judge.isSource, kind, evidence, reference]
  | member new kind => simp [Judge.isSource, kind]

/-- A node of the tree is in the store, and looks as in the tree unless it is tainted. -/
theorem Judgeable.look (h : C.Judgeable s t f) (below : u ∈ C.tree.subtrees) :
    ∃ n, s.node? (some u.tag) = some n ∧ (f.isTainted (some u.tag) = false →
      Judge.isSource s t C.library.constructor f (some u.tag) n.kind = u.isSource (C.evidence f) ∧
        n.kind.judged = u.kind.judged.map (Option.map Tree.tag)) := by
  have here : u.tag ∈ C.tree.ids := List.mem_map_of_mem below
  have bound : u.tag < s.nodes.size := h.present u.tag here
  have found : s.node? (some u.tag) = some s.nodes[u.tag] := Array.getElem?_eq_getElem bound
  refine ⟨s.nodes[u.tag], found, fun untainted => ?_⟩
  have kept : f.isReplaced (some u.tag) = false := by
    by_contra replaced
    rw [h.tainted u.tag here (by simpa using replaced)] at untainted
    cases untainted
  obtain ⟨k, span, found', seen⟩ := h.seen u below kept
  rw [found, Option.some.injEq] at found'
  rw [found']
  exact ⟨h.isSource below kept seen, seen.judged⟩

/-- The plain judge answers for the tree, if the depth suffices. -/
theorem Judgeable.plainWithin (h : C.Judgeable s t f) (below : u ∈ C.tree.subtrees) {fuel : Nat}
    (enough : u.ids.length ≤ fuel) :
    Judge.plainWithin s t C.library.constructor f fuel (some u.tag) = u.isBig (C.evidence f) := by
  induction u using Tree.induction generalizing fuel with
  | step u ih =>
    cases fuel with
    | zero =>
      rw [Tree.ids_eq] at enough
      simp at enough
    | succ fuel =>
      obtain ⟨n, found, look⟩ := h.look below
      rw [Judge.plainWithin_succ found, Tree.isBig_eq]
      cases tainted : f.isTainted (some u.tag) with
      | true => simp [evidence, tainted]
      | false =>
        obtain ⟨source, judged⟩ := look tainted
        have operands : ∀ part ∈ u.kind.judged,
            (Judge.plainWithin s t C.library.constructor f fuel ∘ Option.map Tree.tag) part =
              part.any (Tree.isBig (C.evidence f)) := by
          intro part mem
          cases part with
          | none => exact Judge.plainWithin_none s t _ f fuel
          | some c =>
            have child := Tree.child_of_judged mem
            have shorter := Tree.length_ids_lt child
            exact ih c child (Tree.subtrees_trans below (Tree.child_mem_subtrees child)) (by omega)
        rw [source, judged, List.any_map, any_congr_of_mem operands]
        simp [evidence, tainted]

theorem Judgeable.length_le (h : C.Judgeable s t f) (below : u ∈ C.tree.subtrees) :
    u.ids.length ≤ s.size := by
  have inside : u.ids ⊆ List.range s.size := fun x mem =>
    List.mem_range.mpr (h.present x (Tree.mem_ids_of_subtree below mem))
  simpa using (Tree.nodup_subtree C.distinct below).length_le_of_subset inside

/--
A judge that answers for the tree throughout the pass. Its facts need not be
those of the plain judge, but `Agrees` relates the two.
-/
structure Faithful (C : Setup) (judge : Judge) (Agrees : Facts → Facts → Prop) : Prop where
  absent : ∀ s t c f, judge s t c none f = (false, f)
  answer : ∀ {s t f g u}, C.Judgeable s t g → Agrees f g → u ∈ C.tree.subtrees →
    ∃ f', judge s t C.library.constructor (some u.tag) f = (u.isBig (C.evidence g), f') ∧ Agrees f' g
  replaced : ∀ {f g}, Agrees f g → ∀ slot, f.isReplaced slot = g.isReplaced slot
  settled : ∀ {f g}, Agrees f g → ∀ slot, f.isSettled slot = g.isSettled slot
  bindings : ∀ {f g}, Agrees f g → ∀ b, f.isBindingTainted b = g.isBindingTainted b
  marked : ∀ {f g}, Agrees f g → ∀ t enclosing x,
    Agrees (f.marked t enclosing x) (g.marked t enclosing x)
  markSettled : ∀ {f g}, Agrees f g → ∀ x, Agrees (f.markSettled (some x)) (g.markSettled (some x))
  added : ∀ {f g}, Agrees f g → ∀ x,
    Agrees ((f.markReplaced (some x)).markTainted (some x))
      ((g.markReplaced (some x)).markTainted (some x))
  copied : ∀ {f g}, Agrees f g → ∀ y x, x ∉ C.tree.ids →
    Agrees (f.copyFlags (some y) (some x)) (g.copyFlags (some y) (some x))

/-- The plain judge answers for the tree; its facts are those of the pass. -/
theorem faithful_plain (C : Setup) : C.Faithful .plain Eq where
  absent s t c f := by simp [Judge.plain, Judge.plainWithin_none]
  answer := by
    rintro s t f _ u judgeable rfl below
    have bound := judgeable.length_le below
    exact ⟨f, by rw [Judge.plain, judgeable.plainWithin below (by omega)], rfl⟩
  replaced := by rintro f _ rfl slot; rfl
  settled := by rintro f _ rfl slot; rfl
  bindings := by rintro f _ rfl b; rfl
  marked := by rintro f _ rfl t enclosing x; rfl
  markSettled := by rintro f _ rfl x; rfl
  added := by rintro f _ rfl x; rfl
  copied := by rintro f _ rfl y x _; rfl

end Setup

end BigLower
