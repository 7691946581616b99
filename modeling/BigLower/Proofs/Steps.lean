import BigLower.Proofs.Progress

/-! # Steps of a pass with any faithful judge

The steps of a pass lead to the same store, names, scopes and counts with every
faithful judge, and the facts stay related, unless the store gets full: then it does so
with every judge. Such runs are put together step by step, as the rules are.
-/

namespace BigLower

namespace Store

def withMember (s : Store) (library property : Name) (span : Span) : Store :=
  (s.push (.ident library) span).push (.member (some s.size) property) span

variable (s : Store) (library property : Name) (span : Span)

@[simp] theorem size_withMember : (s.withMember library property span).size = s.size + 2 := by
  simp [withMember]

theorem evolves_withMember {changed : Nat → Prop} :
    s.Evolves changed (s.withMember library property span) :=
  (evolves_push s _ span).trans (evolves_push _ _ span)

theorem kind_withMember_object :
    (s.withMember library property span).kind (some s.size) = .ok (.ident library) :=
  kind_of_node? (node?_push_of_some (node?_push_self s _ span) _ span)

theorem kind_withMember_callee :
    (s.withMember library property span).kind (some (s.size + 1)) =
      .ok (.member (some s.size) property) := by
  have next : (s.push (.ident library) span).size = s.size + 1 := size_push s _ span
  unfold withMember
  rw [← next]
  exact kind_of_node? (node?_push_self _ _ span)

end Store

namespace Setup

variable {τ α β : Type} {C : Setup}

/--
With every faithful judge `m` runs from `q` to `q'` and returns `a`. The facts of
`q` are those of the plain judge; the others agree with them before and after.
-/
def Arrives (C : Setup) (m : Judge → PassM τ α) (q : Pass τ) (a : α) (q' : Pass τ) : Prop :=
  ∀ (judge : Judge) (Agrees : Facts → Facts → Prop), C.Faithful judge Agrees →
    ∀ f, Agrees f q.facts →
      ∃ f', m judge { q with facts := f } = .ok (a, { q' with facts := f' }) ∧ Agrees f' q'.facts

def Overruns (C : Setup) (m : Judge → PassM τ α) (q : Pass τ) : Prop :=
  ∃ fault : Fault, fault.isOverflow = true ∧
    ∀ (judge : Judge) (Agrees : Facts → Facts → Prop), C.Faithful judge Agrees →
      ∀ f, Agrees f q.facts → m judge { q with facts := f } = .error fault

/--
Every faithful judge leads from `q` to `q'` and to `a`, unless the store gets full on the
way. There are never more nodes than indices.
-/
structure Runs (C : Setup) (m : Judge → PassM τ α) (q : Pass τ) (a : α) (q' : Pass τ) : Prop where
  grown : q.store.NoLarger q'.store
  ends : C.Arrives m q a q' ∧ (q.store.size ≤ Store.maxIndex → q'.store.size ≤ Store.maxIndex) ∨
    C.Overruns m q ∧ q'.store.IsFull

namespace Runs

variable {q q₁ q' : Pass τ} {a : α} {b : β}

theorem of_arrives {m : Judge → PassM τ α} (same : q'.store = q.store)
    (arrives : C.Arrives m q a q') : C.Runs m q a q' :=
  ⟨same ▸ .refl _, .inl ⟨arrives, fun few => same ▸ few⟩⟩

theorem pure (a : α) (q : Pass τ) : C.Runs (fun _ => Pure.pure a) q a q :=
  of_arrives rfl fun _ _ _ f agrees => ⟨f, rfl, agrees⟩

theorem bind {m : Judge → PassM τ α} {k : Judge → α → PassM τ β} (first : C.Runs m q a q₁)
    (second : C.Runs (fun judge => k judge a) q₁ b q') :
    C.Runs (fun judge => m judge >>= k judge) q b q' := by
  refine ⟨first.grown.trans second.grown, ?_⟩
  rcases first.ends with ⟨arrives, few⟩ | ⟨⟨fault, overflow, stuck⟩, full⟩
  · rcases second.ends with ⟨arrives', few'⟩ | ⟨⟨fault, overflow, stuck⟩, full⟩
    · refine .inl ⟨fun judge Agrees faithful f agrees => ?_, few' ∘ few⟩
      obtain ⟨f₁, run₁, agrees₁⟩ := arrives judge Agrees faithful f agrees
      obtain ⟨f', run, agrees'⟩ := arrives' judge Agrees faithful f₁ agrees₁
      exact ⟨f', (bind_of_ok run₁).trans run, agrees'⟩
    · refine .inr ⟨⟨fault, overflow, fun judge Agrees faithful f agrees => ?_⟩, full⟩
      obtain ⟨f₁, run₁, agrees₁⟩ := arrives judge Agrees faithful f agrees
      exact (bind_of_ok run₁).trans (stuck judge Agrees faithful f₁ agrees₁)
  · refine .inr ⟨⟨fault, overflow, fun judge Agrees faithful f agrees => ?_⟩,
      second.grown.isFull full⟩
    exact bind_of_error (stuck judge Agrees faithful f agrees)

theorem of_attains {m : PassM τ α} {σ : Type} {x : Except Fault σ} {c : σ}
    (attains : Attains x c q.store q'.store)
    (arrives : x = .ok c → C.Arrives (fun _ => m) q a q')
    (stuck : ∀ {fault}, x = .error fault → ∀ f, m { q with facts := f } = .error fault) :
    C.Runs (fun _ => m) q a q' := by
  refine ⟨attains.grown, ?_⟩
  rcases attains.ends with ⟨run, few⟩ | ⟨⟨fault, ends, overflow⟩, full⟩
  · exact .inl ⟨arrives run, few⟩
  · exact .inr ⟨⟨fault, overflow, fun _ _ _ f _ => stuck ends f⟩, full⟩

/-- What is read off the state may use the facts that all judges agree on. -/
theorem get {k : Judge → Pass τ → PassM τ α} {m : Judge → PassM τ α}
    (same : ∀ judge f, (∀ slot, f.isReplaced slot = q.facts.isReplaced slot) →
      (∀ slot, f.isSettled slot = q.facts.isSettled slot) →
        k judge { q with facts := f } = m judge)
    (run : C.Runs m q a q') : C.Runs (fun judge => MonadState.get >>= k judge) q a q' := by
  have read {judge : Judge} {Agrees : Facts → Facts → Prop} (faithful : C.Faithful judge Agrees)
      {f : Facts} (agrees : Agrees f q.facts) :
      (MonadState.get >>= k judge) { q with facts := f } = m judge { q with facts := f } := by
    rw [← same judge f (faithful.replaced agrees) (faithful.settled agrees)]
    rfl
  refine ⟨run.grown, ?_⟩
  rcases run.ends with ⟨arrives, few⟩ | ⟨⟨fault, overflow, stuck⟩, full⟩
  · refine .inl ⟨fun judge Agrees faithful f agrees => ?_, few⟩
    obtain ⟨f', run', agrees'⟩ := arrives judge Agrees faithful f agrees
    exact ⟨f', (read faithful agrees).trans run', agrees'⟩
  · refine .inr ⟨⟨fault, overflow, fun judge Agrees faithful f agrees => ?_⟩, full⟩
    exact (read faithful agrees).trans (stuck judge Agrees faithful f agrees)

theorem node {slot : Slot} {n : Node} (found : q.store.node? slot = some n) :
    C.Runs (fun _ => PassM.node slot) q n q := by
  refine of_arrives rfl fun _ _ _ f agrees => ⟨f, ?_, agrees⟩
  have read : q.store.node slot = .ok n := Store.node_eq_ok_iff.mpr found
  unfold PassM.node
  rw [bind_of_ok (show (MonadState.get : PassM τ (Pass τ)) { q with facts := f } =
    .ok ({ q with facts := f }, { q with facts := f }) from rfl)]
  simp only [read]
  rfl

theorem alloc (kind : NodeKind) (span : Span) :
    C.Runs (fun _ => PassM.alloc kind span) q q.store.size
      { q with store := q.store.push kind span } :=
  of_attains (q.store.alloc_attains kind span) (fun run _ _ _ f agrees => ⟨f, bind_of_eq run, agrees⟩)
    fun ends _ => bind_of_error ends

theorem allocList {slots : List Slot} (short : slots.length ≤ Store.maxListLength) {range : Range}
    {s' : Store} (stored : q.store.append slots = (range, s')) :
    C.Runs (fun _ => PassM.allocList slots) q range { q with store := s' } :=
  of_attains (Store.allocList_attains short stored)
    (fun run _ _ _ f agrees => ⟨f, bind_of_eq run, agrees⟩) fun ends _ => bind_of_error ends

theorem replace {slot : Slot} {kind : NodeKind} {s' : Store}
    (replaced : q.store.replace slot kind = .ok s') :
    C.Runs (fun _ => PassM.replace slot kind) q () { q with store := s' } :=
  of_attains (Store.replace_attains replaced)
    (fun run _ _ _ f agrees => ⟨f, bind_of_eq run, agrees⟩) fun ends _ => bind_of_error ends

theorem intern [Naming τ] (text : String) :
    C.Runs (fun _ => PassM.intern text) q (Naming.intern q.names text).1
      { q with names := (Naming.intern q.names text).2 } :=
  of_arrives rfl fun _ _ _ f agrees => ⟨f, rfl, agrees⟩

theorem libraryMember (property : Name) (span : Span) :
    C.Runs (fun judge => (C.engine judge).libraryMember property span) q (q.store.size + 1)
      { q with store := q.store.withMember C.library.library property span } := by
  have first := @alloc τ C q (.ident C.library.library) span
  have second := @alloc τ C { q with store := q.store.push (.ident C.library.library) span }
    (.member (some q.store.size) property) span
  rw [Store.size_push] at second
  exact bind first second

theorem applied (enclosing : Slot) (x : Nat) (rule : Rule) :
    C.Runs (fun _ => Engine.applied enclosing x rule) q ()
      (Progress.mark q q.store q.names enclosing x (q.tally.count rule)) :=
  of_arrives rfl fun _ _ faithful f agrees =>
    ⟨_, Engine.applied_eq enclosing x rule { q with facts := f }, faithful.marked agrees _ _ _⟩

theorem settle (x : Nat) :
    C.Runs (fun _ => PassM.learn fun f => f.markSettled (some x)) q ()
      { q with facts := q.facts.markSettled (some x) } :=
  of_arrives rfl fun _ _ faithful _ agrees => ⟨_, rfl, faithful.markSettled agrees x⟩

/-- A node that was added is marked on its own. -/
theorem added (x : Nat) :
    C.Runs (fun _ => PassM.learn fun f => (f.markReplaced (some x)).markTainted (some x)) q ()
      { q with facts := (q.facts.markReplaced (some x)).markTainted (some x) } :=
  of_arrives rfl fun _ _ faithful _ agrees => ⟨_, rfl, faithful.added agrees x⟩

/-- Slots that hold parts of the tree are judged as planned, and the state stays. -/
theorem someBig [Naming τ] {names : τ} {P : Plan} (h : C.Progress names q P)
    {parts : List (Tree.Part Nat Name)} (inside : ∀ u, some u ∈ parts → u ∈ C.tree.subtrees) :
    C.Runs (fun judge => (C.engine judge).someBig (parts.map (Option.map Tree.tag))) q
      (parts.any fun part => part.any (Tree.isBig (C.policy.evidence P))) q := by
  refine of_arrives rfl fun judge Agrees faithful f agrees => ?_
  have answers : ∃ f', judge.anySlot q.store q.scopes C.library.constructor
      (parts.map (Option.map Tree.tag)) f =
        (parts.any fun part => part.any (Tree.isBig (C.policy.evidence P)), f') ∧
      Agrees f' q.facts := by
    induction parts generalizing f with
    | nil => exact ⟨f, rfl, agrees⟩
    | cons part rest ih =>
      have others := ih fun u mem => inside u (List.mem_cons_of_mem part mem)
      cases part with
      | none =>
        obtain ⟨f', run, agrees'⟩ := others f agrees
        exact ⟨f', by simpa [Judge.anySlot, faithful.absent] using run, agrees'⟩
      | some u =>
        have below := inside u List.mem_cons_self
        obtain ⟨f₁, first, agrees₁⟩ := faithful.answer h.judgeable agrees below
        rw [h.isBig_eq below] at first
        cases big : u.isBig (C.policy.evidence P) with
        | true =>
          rw [big] at first
          exact ⟨f₁, by simp [Judge.anySlot, first, big], agrees₁⟩
        | false =>
          rw [big] at first
          obtain ⟨f', run, agrees'⟩ := others f₁ agrees₁
          exact ⟨f', by simpa [Judge.anySlot, first, big] using run, agrees'⟩
  obtain ⟨f', run, agrees'⟩ := answers
  refine ⟨f', ?_, agrees'⟩
  simp only [Engine.someBig, engine, modifyGet, MonadStateOf.modifyGet, StateT.modifyGet, run]
  rfl

end Runs

end Setup

end BigLower
