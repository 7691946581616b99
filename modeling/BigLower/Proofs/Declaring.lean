import BigLower.Proofs.Heights
import BigLower.Scopes.Resolve

/-! # What a tree declares

A list of statements declares its `let` and `const` variables, its functions and what it
brings in from a library; a function or a program also the `var` variables that its statements
reach through blocks and conditionals. Here that is read off the tree, and a store
that holds the tree finds the same declarations in the same order.
-/

namespace BigLower

def Kind.fullLists {ν σ ρ : Type} : Kind ν σ ρ → List ρ
  | .program body | .block body => [body]
  | .varDecl _ declarators => [declarators]
  | .function _ params _ | .arrow params _ => [params]
  | _ => []

theorem Kind.mem_parts_of_fullLists {ν σ ρ : Type} {k : Kind ν σ ρ} {list : ρ}
    (mem : list ∈ k.fullLists) : .inr list ∈ k.parts := by
  cases k <;> simp_all [fullLists, parts]

def Tree.EntriesPresent (T : Tree Nat Name) : Prop :=
  ∀ u ∈ T.subtrees, ∀ list ∈ u.kind.fullLists, none ∉ list

namespace Tree

variable {T c : Tree Nat Name}

theorem EntriesPresent.child (h : T.EntriesPresent) (child : c ∈ T.children) : c.EntriesPresent :=
  fun u below => h u (mem_subtrees_of_child child below)

theorem child_of_list {list : List (Part Nat Name)} (mem : .inr list ∈ T.kind.parts)
    (inside : some c ∈ list) : c ∈ T.children :=
  mem_children_iff.mpr (List.mem_flatMap.mpr ⟨.inr list, mem, inside⟩)

/-! ## Declarations -/

def declaratorOf (kind : BindingKind) : Part Nat Name → List Declaration
  | some (.node x (.declarator name _)) => [⟨name, kind, x⟩]
  | _ => []

def declarators (kind : BindingKind) (list : List (Part Nat Name)) : List Declaration :=
  list.flatMap (declaratorOf kind)

def parameterOf : Part Nat Name → List Declaration
  | some (.node x (.param name)) => [⟨name, .param, x⟩]
  | _ => []

def parameters (list : List (Part Nat Name)) : List Declaration :=
  list.flatMap parameterOf

def lexicalOf : Part Nat Name → List Declaration
  | some (.node _ (.varDecl keyword list)) =>
    if keyword.isLexical then declarators keyword.bindingKind list else []
  | some (.node x (.function name _ _)) => [⟨name, .function, x⟩]
  | some (.node x (.importDefault name _)) => [⟨name, .importDefault, x⟩]
  | _ => []

def lexicals (list : List (Part Nat Name)) : List Declaration :=
  list.flatMap lexicalOf

mutual

/-- The `var` variables that a statement declares, through blocks and conditionals. -/
def hoisted : Tree Nat Name → List Declaration
  | .node _ (.varDecl .var list) => declarators .var list
  | .node _ (.block body) => hoistedList body
  | .node _ (.cond _ yes no) => hoistedOf yes ++ hoistedOf no
  | _ => []

@[inherit_doc hoisted]
def hoistedOf : Part Nat Name → List Declaration
  | none => []
  | some T => hoisted T

def hoistedList : List (Part Nat Name) → List Declaration
  | [] => []
  | part :: rest => hoistedOf part ++ hoistedList rest

end

theorem hoistedList_eq (list : List (Part Nat Name)) : hoistedList list = list.flatMap hoistedOf := by
  induction list with
  | nil => rfl
  | cons part rest ih => rw [hoistedList, ih, List.flatMap_cons]

end Tree

namespace Store

variable {s : Store} {T : Tree Nat Name}

theorem Holds.kind_list (holds : s.Holds T) : ∃ range,
    s.kind (some T.tag) = .ok (T.kind.map (Option.map Tree.tag) fun _ => range) ∧
      ∀ list, .inr list ∈ T.kind.parts → s.list range = .ok (list.map (Option.map Tree.tag)) := by
  obtain ⟨range, span, found, lists⟩ := shape_tree_iff.mp holds.top
  exact ⟨range, kind_eq_ok_iff.mpr ⟨_, found, rfl⟩, lists⟩

/-! ## Steps that may fault -/

/-- A step comes to a value: it comes to no other, and if `sure` then it does not fault. -/
structure Comes {α : Type} (sure : Prop) (x : Except Fault α) (a : α) : Prop where
  unique : ∀ b, x = .ok b → b = a
  total : sure → x = .ok a

namespace Comes

variable {α β : Type} {sure : Prop} {x : Except Fault α} {a : α}

theorem of_ok (same : x = .ok a) : Comes sure x a :=
  ⟨fun _ found => Except.ok.inj (found.symm.trans same), fun _ => same⟩

theorem of_error {e : Fault} (same : x = .error e) (unsure : ¬ sure) : Comes sure x a where
  unique b found := by
    rw [same] at found
    cases found
  total h := (unsure h).elim

theorem of_eq {y : Except Fault α} (same : x = y) (h : Comes sure y a) : Comes sure x a :=
  same ▸ h

theorem bind (first : Comes sure x a) {k : α → Except Fault β} {b : β} (second : Comes sure (k a) b) :
    Comes sure (x >>= k) b where
  unique c found := by
    obtain ⟨a', run, later⟩ := bind_eq_ok_iff.mp found
    cases first.unique a' run
    exact second.unique c later
  total h := (bind_of_eq (first.total h)).trans (second.total h)

theorem foldlM {step : β → α → Except Fault β} {value : β → α → β} {list : List α}
    (each : ∀ a ∈ list, ∀ b, Comes sure (step b a) (value b a)) (b : β) :
    Comes sure (list.foldlM step b) (list.foldl value b) := by
  induction list generalizing b with
  | nil => exact .of_ok rfl
  | cons a rest ih =>
    rw [List.foldlM_cons, List.foldl_cons]
    exact (each a List.mem_cons_self b).bind (ih (fun a mem => each a (List.mem_cons_of_mem _ mem)) _)

end Comes

/-! ## Declarations in a store -/

/--
A range reads a list of trees that the store holds. If `sure` then no entry is absent,
and neither are entries below, and the trees are not as high as `fuel`.
-/
structure HoldsList (s : Store) (sure : Prop) (fuel : Nat) (range : Range)
    (list : List (Tree.Part Nat Name)) : Prop where
  read : s.list range = .ok (list.map (Option.map Tree.tag))
  held : ∀ c, some c ∈ list → s.Holds c
  full : sure → none ∉ list
  entries : sure → ∀ c, some c ∈ list → c.EntriesPresent
  enough : sure → ∀ c, some c ∈ list → c.height < fuel

section Declarations

variable {sure : Prop} {fuel : Nat} {range : Range} {list : List (Tree.Part Nat Name)}

theorem Holds.kind_holdsList (holds : s.Holds T) (entries : sure → T.EntriesPresent)
    (enough : sure → T.height ≤ fuel) : ∃ range,
    s.kind (some T.tag) = .ok (T.kind.map (Option.map Tree.tag) fun _ => range) ∧
      ∀ list ∈ T.kind.fullLists, s.HoldsList sure fuel range list := by
  obtain ⟨range, here, lists⟩ := holds.kind_list
  refine ⟨range, here, fun list own => ?_⟩
  have there := Kind.mem_parts_of_fullLists own
  have child {c : Tree Nat Name} (mem : some c ∈ list) : c ∈ T.children := Tree.child_of_list there mem
  refine ⟨lists list there, fun c mem => holds.child (child mem),
    fun h => entries h T T.self_mem_subtrees list own, fun h c mem => (entries h).child (child mem),
    fun h c mem => ?_⟩
  exact Nat.lt_of_lt_of_le (Tree.height_lt (child mem)) (enough h)

namespace HoldsList

/-- If each step adds what is found in its entry, then all of them add all that is found. -/
theorem comes_append (h : s.HoldsList sure fuel range list) {α : Type}
    {step : Array α → Slot → Except Fault (Array α)} (found : Tree.Part Nat Name → List α)
    (each : ∀ part ∈ list, ∀ before,
      Comes sure (step before (part.map Tree.tag)) (before ++ (found part).toArray))
    (before : Array α) :
    Comes sure (s.list range >>= fun slots => slots.foldlM step before)
      (before ++ (list.flatMap found).toArray) := by
  have appended : list.foldl (fun before part => before ++ (found part).toArray) before =
      before ++ (list.flatMap found).toArray := by
    clear h each
    induction list generalizing before with
    | nil => simp
    | cons part rest ih => simp [ih]
  rw [bind_of_eq h.read, List.foldlM_map, ← appended]
  exact .foldlM each before

theorem absent (h : s.HoldsList sure fuel range list) (mem : none ∈ list) {α : Type}
    {x : Except Fault α} {a : α} (fault : x = .error .outOfBounds) : Comes sure x a :=
  .of_error fault fun sure => h.full sure mem

theorem declarators (h : s.HoldsList sure fuel range list) (kind : BindingKind)
    (before : Array Declaration) :
    Comes sure (s.declarators kind range before)
      (before ++ (Tree.declarators kind list).toArray) := by
  refine h.comes_append (Tree.declaratorOf kind) (fun part mem before => ?_) before
  cases part with
  | none => exact h.absent mem rfl
  | some c =>
    obtain ⟨_, here, -⟩ := (h.held c mem).kind_list
    refine .of_ok ((bind_of_eq here).trans ?_)
    obtain ⟨x, k⟩ := c
    cases k <;> simp [Tree.kind, Kind.map, Tree.declaratorOf, Tree.tag, pure, Except.pure]

theorem params (h : s.HoldsList sure fuel range list) :
    Comes sure (s.params range) (Tree.parameters list).toArray := by
  rw [← @Array.empty_append _ (Tree.parameters list).toArray]
  refine h.comes_append Tree.parameterOf (fun part mem before => ?_) #[]
  cases part with
  | none => exact h.absent mem rfl
  | some c =>
    obtain ⟨_, here, -⟩ := (h.held c mem).kind_list
    refine .of_ok ((bind_of_eq here).trans ?_)
    obtain ⟨x, k⟩ := c
    cases k <;> simp [Tree.kind, Kind.map, Tree.parameterOf, Tree.tag, pure, Except.pure]

theorem lexicals (h : s.HoldsList sure fuel range list) :
    Comes sure (s.lexicals range) (Tree.lexicals list).toArray := by
  rw [← @Array.empty_append _ (Tree.lexicals list).toArray]
  refine h.comes_append Tree.lexicalOf (fun part mem before => ?_) #[]
  cases part with
  | none => exact h.absent mem rfl
  | some c =>
    obtain ⟨range', here, inner⟩ := (h.held c mem).kind_holdsList
      (fun sure => h.entries sure c mem) fun sure => Nat.le_of_lt (h.enough sure c mem)
    refine .of_eq (bind_of_eq here) ?_
    obtain ⟨x, k⟩ := c
    cases k with
    | varDecl keyword list' =>
      have all := (inner list' (by simp [Tree.kind, Kind.fullLists])).declarators
        keyword.bindingKind before
      cases lexical : keyword.isLexical with
      | true => simpa [Tree.kind, Kind.map, Tree.lexicalOf, Tree.tag, lexical] using all
      | false =>
        refine .of_ok ?_
        simp [Tree.kind, Kind.map, Tree.lexicalOf, Tree.tag, lexical, pure, Except.pure]
    | _ => exact .of_ok (by simp [Tree.kind, Kind.map, Tree.lexicalOf, Tree.tag, pure, Except.pure])

end HoldsList

/-- The `var` variables of a held tree are found. The induction is on the fuel. -/
theorem Holds.varsOf (holds : s.Holds T) (entries : sure → T.EntriesPresent)
    (enough : sure → T.height < fuel) (before : Array Declaration) :
    Comes sure (s.varsOf fuel (some T.tag) before) (before ++ T.hoisted.toArray) := by
  induction fuel generalizing T before with
  | zero => exact .of_error rfl fun h => Nat.not_lt_zero _ (enough h)
  | succ fuel ih =>
    have optional {part : Tree.Part Nat Name} (inside : part ∈ T.kind.slots)
        (before : Array Declaration) : Comes sure (s.varsOf fuel (part.map Tree.tag) before)
          (before ++ (Tree.hoistedOf part).toArray) := by
      cases part with
      | none =>
        cases fuel with
        | zero =>
          refine .of_error rfl fun h => ?_
          have := enough h
          have := T.height_pos
          omega
        | succ fuel => exact .of_ok (by simp [Store.varsOf, Tree.hoistedOf, pure, Except.pure])
      | some c =>
        have child : c ∈ T.children := Tree.mem_children_iff.mpr inside
        refine ih (holds.child child) (fun h => (entries h).child child) (fun h => ?_) before
        have := Tree.height_lt child
        have := enough h
        omega
    obtain ⟨range, here, inner⟩ := holds.kind_holdsList entries fun h => Nat.le_of_lt_succ (enough h)
    unfold Store.varsOf
    refine .of_eq (bind_of_eq here) ?_
    obtain ⟨x, k⟩ := T
    cases k with
    | varDecl keyword list =>
      cases keyword with
      | var =>
        rw [Tree.hoisted]
        exact (inner list (by simp [Tree.kind, Kind.fullLists])).declarators .var before
      | _ => exact .of_ok (by simp [Tree.kind, Kind.map, Tree.hoisted, pure, Except.pure])
    | block list =>
      rw [Tree.hoisted, Tree.hoistedList_eq]
      refine (inner list (by simp [Tree.kind, Kind.fullLists])).comes_append _
        (fun part mem before => optional ?_ before) before
      simpa [Tree.kind, Kind.slots, Kind.parts] using mem
    | cond test yes no =>
      rw [Tree.hoisted, ← List.append_toArray, ← Array.append_assoc]
      exact (optional (by simp [Tree.kind, Kind.slots, Kind.parts]) before).bind
        (optional (by simp [Tree.kind, Kind.slots, Kind.parts]) _)
    | _ => exact .of_ok (by simp [Tree.kind, Kind.map, Tree.hoisted, pure, Except.pure])

theorem HoldsList.vars (h : s.HoldsList sure fuel range list) :
    Comes sure (s.vars fuel range) (Tree.hoistedList list).toArray := by
  rw [← @Array.empty_append _ (Tree.hoistedList list).toArray, Tree.hoistedList_eq]
  refine h.comes_append Tree.hoistedOf (fun part mem before => ?_) #[]
  cases part with
  | none =>
    cases fuel with
    | zero => exact .of_error rfl fun sure => h.full sure mem
    | succ fuel => exact .of_ok (by simp [Store.varsOf, Tree.hoistedOf, pure, Except.pure])
  | some c =>
    exact (h.held c mem).varsOf (fun sure => h.entries sure c mem) (fun sure => h.enough sure c mem) before

end Declarations

end Store

end BigLower
