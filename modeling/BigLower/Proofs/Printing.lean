import BigLower.Proofs.Reading
import BigLower.Proofs.Renaming

/-! # The text of a held tree

A store that holds a tree has a text for it if no part is absent that the text
cannot do without, and then it is the text of the tree. The text of a program is
made of the texts of its statements, each on lines of its own.
-/

namespace BigLower

/-! ## Whole trees -/

namespace Kind

variable {ν σ ρ σ' ρ' : Type}

/-- The slots that the text of a kind cannot do without, entries of lists among them. -/
def needed : Kind ν σ (List σ) → List σ
  | program body | varDecl _ body | block body | array body => body
  | function _ params body | arrow params body => params ++ [body]
  | cond test yes _ => [test, yes]
  | exprStmt value | member value _ | unary _ value => [value]
  | call callee args => callee :: args
  | binary _ left right | assign _ left right => [left, right]
  | _ => []

theorem mem_slots_of_needed {k : Kind ν σ (List σ)} {slot : σ} (mem : slot ∈ k.needed) :
    slot ∈ k.slots := by
  cases k <;> simp_all [needed, slots, parts]
  all_goals tauto

theorem traverse_map {τ υ : Type} {m : Type → Type} [Monad m] (f g : σ' → m τ) (h : ρ' → m υ)
    (φ : σ → σ') (ψ : ρ → ρ') (k : Kind ν σ ρ) :
    (k.map φ ψ).traverse f g h = k.traverse (f ∘ φ) (g ∘ φ) (h ∘ ψ) := by
  cases k <;> rfl

theorem traverse_congr {m : Type → Type} [Monad m] {f f' g g' : σ → m σ'} {h h' : ρ → m ρ'}
    {k : Kind ν σ ρ} (slots : ∀ slot, .inl slot ∈ k.parts → f slot = f' slot ∧ g slot = g' slot)
    (lists : ∀ list, .inr list ∈ k.parts → h list = h' list) :
    k.traverse f g h = k.traverse f' g' h' := by
  cases k <;> simp_all [traverse, parts]

/-- Names may be changed before the parts are acted on, and what comes of a part on the way. -/
theorem map_traverse {μ σ'' ρ'' : Type} {m : Type → Type} [Monad m] [LawfulMonad m] (g : ν → μ)
    (φ : σ' → σ'') (ψ : ρ' → ρ'') (onNeeded onOptional : σ → m σ') (onList : ρ → m ρ')
    (k : Kind ν σ ρ) :
    (fun k' => (k'.rename g).map φ ψ) <$> k.traverse onNeeded onOptional onList =
      (k.rename g).traverse (φ <$> onNeeded ·) (φ <$> onOptional ·) (ψ <$> onList ·) := by
  cases k <;> simp [traverse, rename, map]

theorem traverse_rename {μ : Type} {m : Type → Type} [Monad m] [LawfulMonad m] (g : ν → μ)
    (onNeeded onOptional : σ → m σ') (onList : ρ → m ρ') (k : Kind ν σ ρ) :
    (k.rename g).traverse onNeeded onOptional onList =
      rename g <$> k.traverse onNeeded onOptional onList := by
  cases k <;> simp [traverse, rename]

theorem mapM_eq_self {f : σ → Except Fault σ} {list : List σ}
    (same : ∀ slot ∈ list, f slot = .ok slot) : list.mapM f = .ok list := by
  induction list with
  | nil => rfl
  | cons slot rest ih =>
    rw [List.mapM_cons, same slot List.mem_cons_self,
      ih fun other mem => same other (List.mem_cons_of_mem slot mem)]
    rfl

theorem ok_of_mapM {f : σ → Except Fault σ'} {list : List σ} {result : List σ'}
    (read : list.mapM f = .ok result) : ∀ slot ∈ list, ∃ a, f slot = .ok a := by
  induction list generalizing result with
  | nil => simp
  | cons slot rest ih =>
    rw [List.mapM_cons] at read
    obtain ⟨a, first, later⟩ := bind_eq_ok_iff.mp read
    obtain ⟨others, second, -⟩ := bind_eq_ok_iff.mp later
    intro other mem
    rcases List.mem_cons.mp mem with rfl | mem
    · exact ⟨a, first⟩
    · exact ih second other mem

theorem traverse_eq_self {f g : σ → Except Fault σ} {k : Kind ν σ (List σ)}
    (needed : ∀ slot ∈ k.needed, f slot = .ok slot) (all : ∀ slot ∈ k.slots, g slot = .ok slot) :
    k.traverse f g (·.mapM f) = .ok k := by
  cases k <;> simp_all [traverse, Kind.needed, slots, parts, bind, Except.bind, pure, Except.pure,
    mapM_eq_self]

theorem ok_of_traverse {f g : σ → Except Fault σ'} {k : Kind ν σ (List σ)}
    {k' : Kind ν σ' (List σ')} (read : k.traverse f g (·.mapM f) = .ok k') :
    (∀ slot ∈ k.needed, ∃ a, f slot = .ok a) ∧
      ∀ slot ∈ k.slots, (∃ a, f slot = .ok a) ∨ ∃ a, g slot = .ok a := by
  cases k <;> simp only [traverse, bind_eq_ok_iff] at read <;>
    simp [Kind.needed, slots, parts] <;> grind [ok_of_mapM]

theorem ok_of_traverse_list {f g : σ → Except Fault σ'} {h : ρ → Except Fault ρ'} {k : Kind ν σ ρ}
    {k' : Kind ν σ' ρ'} (read : k.traverse f g h = .ok k') {list : ρ} (mem : .inr list ∈ k.parts) :
    ∃ a, h list = .ok a := by
  cases k <;> simp only [traverse, bind_eq_ok_iff] at read <;> simp [parts] at mem <;> grind

end Kind

def Tree.IsWhole {α ν : Type} (T : Tree α ν) : Prop :=
  ∀ u ∈ T.subtrees, none ∉ u.kind.needed

namespace Store

variable {s : Store} {T : Tree Nat Name} {gap : Except Fault (Tree.Part Nat Name)} {fuel : Nat}

theorem Holds.treeWithin_succ (holds : s.Holds T) (gap : Except Fault (Tree.Part Nat Name))
    (fuel : Nat) :
    s.treeWithin gap (fuel + 1) T.tag = do
      let kind ← T.kind.traverse (fun p => part gap (s.treeWithin gap fuel) (p.map Tree.tag))
        (fun p => part (pure none) (s.treeWithin gap fuel) (p.map Tree.tag))
        (·.mapM fun p => part gap (s.treeWithin gap fuel) (p.map Tree.tag))
      return .node T.tag kind := by
  obtain ⟨range, span, found, lists⟩ := shape_tree_iff.mp holds.top
  have kind : s.kind (some T.tag) = .ok (T.kind.map (Option.map Tree.tag) fun _ => range) := by
    rw [Store.kind, found]
  rw [treeWithin]
  refine (bind_of_eq kind).trans ?_
  dsimp only
  rw [Kind.traverse_map]
  refine congrArg (· >>= _) (Kind.traverse_congr (fun _ _ => ⟨rfl, rfl⟩) fun list mem => ?_)
  exact (bind_of_eq (lists list mem)).trans List.mapM_map

theorem part_eq_ok_iff {read : Nat → Except Fault (Tree Nat Name)} {c : Tree Nat Name}
    {result : Tree.Part Nat Name} : part gap read (some c.tag) = .ok result ↔
      ∃ c', read c.tag = .ok c' ∧ some c' = result := by
  unfold part
  rw [bind_eq_ok_iff]
  simp [pure, Except.pure]

theorem Holds.treeWithin_eq (holds : s.Holds T) (whole : T.IsWhole) (enough : T.ids.length ≤ fuel) :
    s.treeWithin gap fuel T.tag = .ok T := by
  induction T using Tree.induction generalizing fuel with
  | step T ih =>
    cases fuel with
    | zero =>
      rw [Tree.ids_eq] at enough
      cases enough
    | succ fuel =>
      have below {gap' : Except Fault (Tree.Part Nat Name)} {c : Tree Nat Name}
          (mem : some c ∈ T.kind.slots) :
          part gap' (s.treeWithin gap fuel) (some c.tag) = .ok (some c) := by
        have child : c ∈ T.children := Tree.mem_children_iff.mpr mem
        have fewer := Tree.length_ids_lt child
        refine part_eq_ok_iff.mpr ⟨c, ih c child (holds.child child) ?_ (by omega), rfl⟩
        exact fun u inside => whole u (Tree.mem_subtrees_of_child child inside)
      rw [holds.treeWithin_succ, Kind.traverse_eq_self]
      · cases T
        rfl
      · intro p mem
        cases p with
        | none => exact (whole T T.self_mem_subtrees mem).elim
        | some c => exact below (Kind.mem_slots_of_needed mem)
      · intro p mem
        cases p with
        | none => rfl
        | some c => exact below mem

/-- Where a gap is a fault, only whole trees can be read. -/
theorem Holds.isWhole_of_treeWithin {e : Fault} (holds : s.Holds T) {W : Tree Nat Name}
    (read : s.treeWithin (throw e) fuel T.tag = .ok W) : T.IsWhole := by
  induction T using Tree.induction generalizing fuel W with
  | step T ih =>
    cases fuel with
    | zero => cases read
    | succ fuel =>
      rw [holds.treeWithin_succ] at read
      obtain ⟨kind, traversed, -⟩ := bind_eq_ok_iff.mp read
      obtain ⟨needed, all⟩ := Kind.ok_of_traverse traversed
      intro u mem
      rcases Tree.mem_subtrees_iff.mp mem with rfl | ⟨c, child, inside⟩
      · intro gap
        obtain ⟨a, absent⟩ := needed none gap
        cases absent
      · have own : ∃ c', s.treeWithin (throw e) fuel c.tag = .ok c' := by
          rcases all (some c) (Tree.mem_children_iff.mp child) with ⟨a, ok⟩ | ⟨a, ok⟩
          · obtain ⟨c', ok, -⟩ := part_eq_ok_iff.mp ok
            exact ⟨c', ok⟩
          · obtain ⟨c', ok, -⟩ := part_eq_ok_iff.mp ok
            exact ⟨c', ok⟩
        obtain ⟨c', ok⟩ := own
        exact ih c child (holds.child child) ok u inside

/-- A held tree without sharing has a text exactly if it is whole. -/
theorem Holds.print_eq_ok_iff (holds : s.Holds T) (distinct : T.ids.Nodup) {text : Name → String}
    {result : String} :
    s.print text (some T.tag) = .ok result ↔ T.IsWhole ∧ T.unitText text = result := by
  have enough := holds.length_le distinct
  have read (whole : T.IsWhole) : s.print text (some T.tag) = .ok (T.unitText text) :=
    bind_of_eq (holds.treeWithin_eq whole (by omega))
  constructor
  · intro printed
    obtain ⟨W, ok, -⟩ := bind_eq_ok_iff.mp printed
    have whole := holds.isWhole_of_treeWithin ok
    rw [read whole] at printed
    exact ⟨whole, Except.ok.inj printed⟩
  · rintro ⟨whole, rfl⟩
    exact read whole

end Store

/-! ## The text of a program -/

namespace Tree

variable {α ν : Type} {text : ν → String}

theorem renderLines_eq (text : ν → String) (depth : Nat) (written : String)
    (list : List (Part α ν)) :
    renderLines text depth written list = written ++ renderLines text depth "" list := by
  induction list generalizing written with
  | nil => simp [renderLines]
  | cons part rest ih =>
    rw [renderLines, renderLines, ih, ih ("" ++ _ ++ _ ++ _)]
    simp [String.append_assoc]

theorem renderLines_cons (text : ν → String) (part : Part α ν) (rest : List (Part α ν)) :
    renderLines text 0 "" (part :: rest) =
      renderPart text 0 looseLevel part ++ "\n" ++ renderLines text 0 "" rest := by
  rw [renderLines, renderLines_eq]
  simp [margin]

theorem renderLines_append (text : ν → String) (first second : List (Part α ν)) :
    renderLines text 0 "" (first ++ second) =
      renderLines text 0 "" first ++ renderLines text 0 "" second := by
  induction first with
  | nil => simp [renderLines]
  | cons part rest ih =>
    rw [List.cons_append, renderLines_cons, renderLines_cons, ih]
    simp only [String.append_assoc]

theorem render_of_program {T : Tree α ν} {body : List (Part α ν)} (program : T.kind = .program body) :
    T.render text 0 looseLevel = renderLines text 0 "" body := by
  obtain ⟨tag, kind⟩ := T
  cases program
  rfl

theorem strip_eq {cs : List Char} {c : Char} (last : cs.getLast? = some c) (inside : c ≠ '\n') :
    (cs.reverse.dropWhile (· == '\n')).reverse = cs := by
  obtain ⟨front, rfl⟩ := List.getLast?_eq_some_iff.mp last
  simp [inside]

theorem endLine_eq_append {front : String} {c : Char} (last : front.toList.getLast? = some c)
    (inside : c ≠ '\n') : endLine front = front ++ "\n" := by
  have filled : front.isEmpty = false := by
    cases empty : front.isEmpty with
    | false => rfl
    | true => simp [String.isEmpty_iff.mp empty] at last
  rw [endLine, filled, if_neg Bool.false_ne_true, strip_eq last inside, String.ofList_toList]

/-- A text with more behind it than line ends is only closed by one. -/
theorem endLine_eq {front : String} {c : Char} (last : front.toList.getLast? = some c)
    (inside : c ≠ '\n') : endLine (front ++ "\n") = front ++ "\n" := by
  have filled : (front ++ "\n").isEmpty = false := by simp
  have stripped : ((front ++ "\n").toList.reverse.dropWhile (· == '\n')).reverse = front.toList := by
    have ends : (front ++ "\n").toList = front.toList ++ ['\n'] := by simp
    rw [ends, List.reverse_append, List.reverse_singleton, List.singleton_append,
      List.dropWhile_cons_of_pos (by simp), strip_eq last inside]
  rw [endLine, filled, if_neg Bool.false_ne_true, stripped, String.ofList_toList]

def ClosesLine (text : ν → String) (body : List (Part α ν)) : Prop :=
  ∀ part, body.getLast? = some part →
    ∃ c, (renderPart text 0 looseLevel part).toList.getLast? = some c ∧ c ≠ '\n'

theorem unitText_of_program {T : Tree α ν} {body : List (Part α ν)}
    (program : T.kind = .program body) (closes : ClosesLine text body) :
    T.unitText text = renderLines text 0 "" body := by
  rw [unitText, render_of_program program]
  cases last : body.getLast? with
  | none =>
    rw [List.getLast?_eq_none_iff.mp last]
    rfl
  | some part =>
    obtain ⟨front, rfl⟩ := List.getLast?_eq_some_iff.mp last
    obtain ⟨c, ends, inside⟩ := closes part last
    have lines : renderLines text 0 "" (front ++ [part]) =
        renderLines text 0 "" front ++ renderPart text 0 looseLevel part ++ "\n" := by
      rw [renderLines_append, renderLines_cons]
      simp [renderLines, String.append_assoc]
    rw [lines]
    refine endLine_eq ?_ inside
    rw [String.toList_append, List.getLast?_append, ends]
    rfl

theorem ClosesLine.cons {body : List (Part α ν)} (closes : ClosesLine text body)
    {part : Part α ν} {c : Char}
    (first : (renderPart text 0 looseLevel part).toList.getLast? = some c) (inside : c ≠ '\n') :
    ClosesLine text (part :: body) := by
  intro last found
  rw [List.getLast?_cons] at found
  cases rest : body.getLast? with
  | none =>
    rw [rest] at found
    cases found
    exact ⟨c, first, inside⟩
  | some other =>
    rw [rest] at found
    cases found
    exact closes _ rest

theorem ClosesLine.congr {text' : ν → String} {body : List (Part α ν)}
    (closes : ClosesLine text body) (same : ∀ c, some c ∈ body → ∀ u ∈ c.subtrees,
      ∀ name ∈ u.kind.names, text' name = text name) : ClosesLine text' body := by
  intro part last
  obtain ⟨c, ends, inside⟩ := closes part last
  refine ⟨c, ?_, inside⟩
  cases part with
  | none => exact ends
  | some d =>
    have alike := render_congr (same d (List.mem_of_getLast? last)) 0 looseLevel
    rw [renderPart] at ends ⊢
    rw [alike, ends]

end Tree

end BigLower
