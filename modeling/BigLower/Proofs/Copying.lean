import BigLower.Proofs.Capacity
import BigLower.Proofs.Heights
import BigLower.Store.Copy

/-! # Deep copies hold the same tree

Copying a tree that a store holds adds the nodes of another tree to the store, unless
the store gets full on the way. The two trees have the same form, the new indices are
consecutive, and the reported pairs go through both trees in the same order. Paired
nodes are alike.
-/

namespace BigLower

def Tree.ListsFit {α : Type} (T : Tree α Name) : Prop :=
  ∀ u ∈ T.subtrees, ∀ list, .inr list ∈ u.kind.parts → list.length ≤ Store.maxListLength

theorem Tree.ListsFit.child {T c : Tree Nat Name} (fit : T.ListsFit) (child : c ∈ T.children) :
    c.ListsFit :=
  fun u below => fit u (mem_subtrees_of_child child below)

theorem Kind.label_map {ν σ ρ σ' ρ' : Type} (f : σ → σ') (g : ρ → ρ') (k : Kind ν σ ρ) :
    (k.map f g).label = k.label := by
  cases k <;> rfl

def Kind.entries {ν σ : Type} (k : Kind ν σ (List σ)) : List σ :=
  k.parts.flatMap (Sum.elim (fun _ => []) id)

def Tree.entries (T : Tree Nat Name) : List (Tree.Part Nat Name) :=
  T.subtrees.flatMap fun u => u.kind.entries

theorem Tree.entries_eq (T : Tree Nat Name) :
    T.entries = T.kind.entries ++ T.children.flatMap Tree.entries := by
  rw [entries, subtrees_eq, List.flatMap_cons, List.flatMap_assoc]
  rfl

namespace Store

/-! ## Copies under way -/

def CopyM.Goes {α : Type} (m : CopyM α) (c : Copying) (a : α) (c' : Copying) : Prop :=
  Attains (m c) (a, c') c.store c'.store

namespace CopyM.Goes

variable {α β : Type} {m : CopyM α} {k : α → CopyM β} {c c₁ c' : Copying} {a : α} {b : β}

theorem pure (a : α) (c : Copying) : Goes (Pure.pure a) c a c := .of_eq rfl (.refl _) rfl

theorem bind (first : Goes m c a c₁) (second : Goes (k a) c₁ b c') : Goes (m >>= k) c b c' :=
  Attains.bind first second

theorem get {k : Copying → CopyM β} (next : Goes (k c) c b c') : Goes (MonadState.get >>= k) c b c' :=
  next

theorem lift {x : Except Fault α} (read : x = .ok a) (next : Goes (k a) c b c') :
    Goes ((liftM x : CopyM α) >>= k) c b c' := by
  subst read
  exact next

theorem alloc (kind : NodeKind) (span : Span) (c : Copying) :
    Goes (CopyM.alloc kind span) c c.store.size { c with store := c.store.push kind span } :=
  (c.store.alloc_attains kind span).map _

theorem allocList {slots : List Slot} (short : slots.length ≤ maxListLength) {range : Range}
    {store : Store} (stored : c.store.append slots = (range, store)) :
    Goes (CopyM.allocList slots) c range { c with store } :=
  (allocList_attains short stored).map _

end CopyM.Goes

def Twins (s : Store) (x y : Nat) : Prop :=
  ∃ n n', s.node? (some x) = some n ∧ s.node? (some y) = some n' ∧ n'.span = n.span ∧
    n'.kind.label = n.kind.label

theorem Twins.evolve {s s' : Store} {x y : Nat} (h : s.Twins x y)
    (grown : s.Evolves (fun _ => False) s') : s'.Twins x y := by
  obtain ⟨n, n', left, right, alike⟩ := h
  exact ⟨n, n', grown.kept left id, grown.kept right id, alike⟩

/--
A copy went from `c` to `c'` and put `copies` beside `parts`. Beside the lists in the
copies it stored lists with `own` entries.
-/
structure Doubled (c c' : Copying) (parts copies : List (Tree.Part Nat Name)) (own : Nat) :
    Prop where
  grown : c.store.Evolves (fun _ => False) c'.store
  holds : ∀ C ∈ copies.filterMap id, c'.store.Holds C
  alike : copies.map (Option.map Tree.form) = parts.map (Option.map Tree.form)
  fresh : (copies.filterMap id).flatMap Tree.postorder =
    List.range' c.store.size (c'.store.size - c.store.size)
  pairs : ∃ new, c'.pairs.toList = c.pairs.toList ++ new ∧
    new.map Prod.fst = (parts.filterMap id).flatMap Tree.postorder ∧
    new.map Prod.snd = (copies.filterMap id).flatMap Tree.postorder
  twins : ∀ pair ∈ c'.pairs, pair ∈ c.pairs ∨ c'.store.Twins pair.1 pair.2
  entries : c'.store.lists.size =
    c.store.lists.size + own + ((parts.filterMap id).flatMap Tree.entries).length

namespace Doubled

theorem nil (c : Copying) : Doubled c c [] [] 0 where
  grown := .refl _
  holds := by simp
  alike := rfl
  fresh := by simp
  pairs := ⟨[], by simp⟩
  twins _ mem := .inl mem
  entries := rfl

theorem absent (c : Copying) : Doubled c c [none] [none] 0 where
  grown := .refl _
  holds := by simp
  alike := rfl
  fresh := by simp
  pairs := ⟨[], by simp⟩
  twins _ mem := .inl mem
  entries := rfl

theorem append {c c₁ c₂ : Copying} {ps ps' qs qs' : List (Tree.Part Nat Name)} {own own' : Nat}
    (first : Doubled c c₁ ps ps' own) (second : Doubled c₁ c₂ qs qs' own') :
    Doubled c c₂ (ps ++ qs) (ps' ++ qs') (own + own') where
  grown := first.grown.trans second.grown
  holds := by
    intro C mem
    rw [List.filterMap_append, List.mem_append] at mem
    rcases mem with mem | mem
    · exact (first.holds C mem).evolve second.grown fun _ _ => id
    · exact second.holds C mem
  alike := by rw [List.map_append, List.map_append, first.alike, second.alike]
  fresh := by
    have le := first.grown.size_le
    have le' := second.grown.size_le
    have middle : c.store.size + 1 * (c₁.store.size - c.store.size) = c₁.store.size := by omega
    have total : c₂.store.size - c.store.size =
        (c₁.store.size - c.store.size) + (c₂.store.size - c₁.store.size) := by omega
    rw [List.filterMap_append, List.flatMap_append, first.fresh, second.fresh, total,
      ← List.range'_append, middle]
  pairs := by
    obtain ⟨new, all, old, copies⟩ := first.pairs
    obtain ⟨new', all', old', copies'⟩ := second.pairs
    refine ⟨new ++ new', by rw [all', all, List.append_assoc], ?_, ?_⟩
    · rw [List.map_append, old, old', List.filterMap_append, List.flatMap_append]
    · rw [List.map_append, copies, copies', List.filterMap_append, List.flatMap_append]
  twins pair mem := by
    rcases second.twins pair mem with before | alike
    · exact (first.twins pair before).imp_right fun alike => alike.evolve second.grown
    · exact .inr alike
  entries := by
    rw [second.entries, first.entries, List.filterMap_append, List.flatMap_append, List.length_append]
    omega

theorem allocList {c c' : Copying} {ps ps' : List (Tree.Part Nat Name)} {own : Nat}
    (h : Doubled c c' ps ps' own) {slots : List Slot} {range : Range} {store : Store}
    (stored : c'.store.append slots = (range, store)) :
    Doubled c { c' with store } ps ps' (own + slots.length) where
  grown := h.grown.trans (evolves_append stored)
  holds := fun C mem => (h.holds C mem).evolve (evolves_append stored) fun _ _ => id
  alike := h.alike
  fresh := by
    have same : store.size = c'.store.size := by
      simp [size, (append_lists stored).1]
    simpa [same] using h.fresh
  pairs := h.pairs
  twins pair mem := (h.twins pair mem).imp_right fun alike => alike.evolve (evolves_append stored)
  entries := by
    have added : store.lists.size = c'.store.lists.size + slots.length := by
      simp [(append_lists stored).2]
    have before := h.entries
    show store.lists.size = _
    omega

end Doubled

def Copyable (fuel : Nat) (T : Tree Nat Name) : Prop :=
  ∀ c : Copying, c.store.Holds T →
    ∃ C c', CopyM.Goes (copyNode fuel T.tag) c C.tag c' ∧ Doubled c c' [some T] [some C] 0

section Parts

variable {fuel : Nat}

theorem copy_slot {c : Copying} {part : Tree.Part Nat Name}
    (ready : ∀ T ∈ part, Copyable fuel T ∧ c.store.Holds T) :
    ∃ copy c', CopyM.Goes (CopyM.slot (copyNode fuel) (part.map Tree.tag)) c (copy.map Tree.tag) c' ∧
      Doubled c c' [part] [copy] 0 := by
  cases part with
  | none => exact ⟨none, c, .pure _ c, .absent c⟩
  | some T =>
    obtain ⟨copyable, holds⟩ := ready T rfl
    obtain ⟨C, c', run, doubled⟩ := copyable c holds
    exact ⟨some C, c', run.bind (.pure _ c'), doubled⟩

theorem copy_slots {c : Copying} {list : List (Tree.Part Nat Name)}
    (ready : ∀ T, some T ∈ list → Copyable fuel T ∧ c.store.Holds T) :
    ∃ copies c', CopyM.Goes ((list.map (Option.map Tree.tag)).mapM (CopyM.slot (copyNode fuel))) c
        (copies.map (Option.map Tree.tag)) c' ∧ Doubled c c' list copies 0 := by
  induction list generalizing c with
  | nil => exact ⟨[], c, .pure _ c, .nil c⟩
  | cons part rest ih =>
    have own : ∀ T ∈ part, Copyable fuel T ∧ c.store.Holds T := by
      rintro T ⟨⟩
      exact ready T List.mem_cons_self
    obtain ⟨copy, c₁, run, doubled⟩ := copy_slot own
    have later : ∀ T, some T ∈ rest → Copyable fuel T ∧ c₁.store.Holds T := by
      intro T mem
      obtain ⟨copyable, holds⟩ := ready T (List.mem_cons_of_mem part mem)
      exact ⟨copyable, holds.evolve doubled.grown fun _ _ => id⟩
    obtain ⟨copies, c₂, run', doubled'⟩ := ih later
    refine ⟨copy :: copies, c₂, ?_, doubled.append doubled'⟩
    rw [List.map_cons, List.mapM_cons]
    exact run.bind (run'.bind (.pure _ c₂))

theorem copy_list {c : Copying} {list : List (Tree.Part Nat Name)} {range : Range}
    (read : c.store.list range = .ok (list.map (Option.map Tree.tag)))
    (fits : list.length ≤ maxListLength)
    (ready : ∀ T, some T ∈ list → Copyable fuel T ∧ c.store.Holds T) :
    ∃ copies range' c', CopyM.Goes (CopyM.list (copyNode fuel) range) c range' c' ∧
      Doubled c c' list copies list.length ∧
      c'.store.list range' = .ok (copies.map (Option.map Tree.tag)) := by
  obtain ⟨copies, c₁, run, doubled⟩ := copy_slots ready
  have length : (copies.map (Option.map Tree.tag)).length = list.length := by
    have := congrArg List.length doubled.alike
    simpa using this
  obtain ⟨range', store, stored⟩ := c₁.store.exists_append (copies.map (Option.map Tree.tag))
  have last := CopyM.Goes.allocList (length ▸ fits) stored
  have both := doubled.allocList stored
  rw [Nat.zero_add, length] at both
  exact ⟨copies, range', { c₁ with store }, .get (.lift read (run.bind last)), both,
    list_append stored⟩

/-- What a kind needs to be copied: its list can be read and stored, its subtrees can be copied. -/
structure KindReady (fuel : Nat) (c : Copying) (k : TreeKind) (range : Range) : Prop where
  list : ∀ list, .inr list ∈ k.parts →
    c.store.list range = .ok (list.map (Option.map Tree.tag)) ∧ list.length ≤ maxListLength
  slots : ∀ T, some T ∈ k.slots → Copyable fuel T ∧ c.store.Holds T

theorem copy_kind {c : Copying} {k : TreeKind} {range : Range} (ready : KindReady fuel c k range) :
    ∃ (k' : TreeKind) (range' : Range) (c' : Copying),
      CopyM.Goes ((k.map (Option.map Tree.tag) fun _ => range).traverse (CopyM.slot (copyNode fuel))
          (CopyM.slot (copyNode fuel)) (CopyM.list (copyNode fuel))) c
        (k'.map (Option.map Tree.tag) fun _ => range') c' ∧
      Doubled c c' k.slots k'.slots k.entries.length ∧
      (∀ list, .inr list ∈ k'.parts →
        c'.store.list range' = .ok (list.map (Option.map Tree.tag))) ∧
      k'.map (Option.map Tree.form) (List.map (Option.map Tree.form)) =
        k.map (Option.map Tree.form) (List.map (Option.map Tree.form)) := by
  -- Each part is copied from the state that the part before it leaves.
  have slot {c₁ : Copying} (part : Tree.Part Nat Name) (mem : part ∈ k.slots)
      (grown : c.store.Evolves (fun _ => False) c₁.store) :
      ∃ copy c',
        CopyM.Goes (CopyM.slot (copyNode fuel) (part.map Tree.tag)) c₁ (copy.map Tree.tag) c' ∧
        Doubled c₁ c' [part] [copy] 0 := by
    apply copy_slot
    rintro T ⟨⟩
    obtain ⟨copyable, holds⟩ := ready.slots T mem
    exact ⟨copyable, holds.evolve grown fun _ _ => id⟩
  have list {c₁ : Copying} (list : List (Tree.Part Nat Name)) (mem : .inr list ∈ k.parts)
      (grown : c.store.Evolves (fun _ => False) c₁.store) :
      ∃ copies range' c', CopyM.Goes (CopyM.list (copyNode fuel) range) c₁ range' c' ∧
        Doubled c₁ c' list copies list.length ∧
        c'.store.list range' = .ok (copies.map (Option.map Tree.tag)) := by
    obtain ⟨read, fits⟩ := ready.list list mem
    apply copy_list (grown.list read) fits
    intro T entry
    have inside : some T ∈ k.slots := List.mem_flatMap.mpr ⟨.inr list, mem, entry⟩
    obtain ⟨copyable, holds⟩ := ready.slots T inside
    exact ⟨copyable, holds.evolve grown fun _ _ => id⟩
  cases k with
  | program body =>
    obtain ⟨body', range', c', run, doubled, stored⟩ := list body (by simp [Kind.parts]) (.refl _)
    exact ⟨.program body', range', c', run.bind (.pure _ _),
      by simpa [Kind.slots, Kind.entries, Kind.parts] using doubled, by simpa [Kind.parts] using stored,
      by simpa [Kind.map] using doubled.alike⟩
  | importDefault binder source =>
    exact ⟨.importDefault binder source, range, c, .pure _ c, .nil c, by simp [Kind.parts], rfl⟩
  | varDecl keyword declarators =>
    obtain ⟨declarators', range', c', run, doubled, stored⟩ :=
      list declarators (by simp [Kind.parts]) (.refl _)
    exact ⟨.varDecl keyword declarators', range', c', run.bind (.pure _ _),
      by simpa [Kind.slots, Kind.entries, Kind.parts] using doubled, by simpa [Kind.parts] using stored,
      by simpa [Kind.map] using doubled.alike⟩
  | declarator name value =>
    obtain ⟨value', c', run, doubled⟩ := slot value (by simp [Kind.slots, Kind.parts]) (.refl _)
    exact ⟨.declarator name value', range, c', run.bind (.pure _ _), doubled, by simp [Kind.parts],
      by simpa [Kind.map] using doubled.alike⟩
  | function name params body =>
    obtain ⟨params', range', c₁, run, first, stored⟩ := list params (by simp [Kind.parts]) (.refl _)
    obtain ⟨body', c₂, run', second⟩ := slot body (by simp [Kind.slots, Kind.parts]) first.grown
    refine ⟨.function name params' body', range', c₂, run.bind (run'.bind (.pure _ _)),
      by simpa [Kind.slots, Kind.entries, Kind.parts] using first.append second,
      by simpa [Kind.parts] using second.grown.list stored, ?_⟩
    have same := first.alike
    have same' := second.alike
    simp_all [Kind.map]
  | param name => exact ⟨.param name, range, c, .pure _ c, .nil c, by simp [Kind.parts], rfl⟩
  | ret value =>
    obtain ⟨value', c', run, doubled⟩ := slot value (by simp [Kind.slots, Kind.parts]) (.refl _)
    exact ⟨.ret value', range, c', run.bind (.pure _ _), doubled, by simp [Kind.parts],
      by simpa [Kind.map] using doubled.alike⟩
  | cond test yes no =>
    obtain ⟨test', c₁, run, first⟩ := slot test (by simp [Kind.slots, Kind.parts]) (.refl _)
    obtain ⟨yes', c₂, run', second⟩ := slot yes (by simp [Kind.slots, Kind.parts]) first.grown
    have both := first.append second
    obtain ⟨no', c₃, run'', third⟩ := slot no (by simp [Kind.slots, Kind.parts]) both.grown
    exact ⟨.cond test' yes' no', range, c₃,
      run.bind (run'.bind (run''.bind (.pure _ _))), both.append third,
      by simp [Kind.parts], by simpa [Kind.map] using (both.append third).alike⟩
  | block body =>
    obtain ⟨body', range', c', run, doubled, stored⟩ := list body (by simp [Kind.parts]) (.refl _)
    exact ⟨.block body', range', c', run.bind (.pure _ _),
      by simpa [Kind.slots, Kind.entries, Kind.parts] using doubled, by simpa [Kind.parts] using stored,
      by simpa [Kind.map] using doubled.alike⟩
  | exprStmt expr =>
    obtain ⟨expr', c', run, doubled⟩ := slot expr (by simp [Kind.slots, Kind.parts]) (.refl _)
    exact ⟨.exprStmt expr', range, c', run.bind (.pure _ _), doubled, by simp [Kind.parts],
      by simpa [Kind.map] using doubled.alike⟩
  | bigInt digits => exact ⟨.bigInt digits, range, c, .pure _ c, .nil c, by simp [Kind.parts], rfl⟩
  | number digits => exact ⟨.number digits, range, c, .pure _ c, .nil c, by simp [Kind.parts], rfl⟩
  | str content => exact ⟨.str content, range, c, .pure _ c, .nil c, by simp [Kind.parts], rfl⟩
  | bool value => exact ⟨.bool value, range, c, .pure _ c, .nil c, by simp [Kind.parts], rfl⟩
  | null => exact ⟨.null, range, c, .pure _ c, .nil c, by simp [Kind.parts], rfl⟩
  | ident name => exact ⟨.ident name, range, c, .pure _ c, .nil c, by simp [Kind.parts], rfl⟩
  | member object property =>
    obtain ⟨object', c', run, doubled⟩ := slot object (by simp [Kind.slots, Kind.parts]) (.refl _)
    exact ⟨.member object' property, range, c', run.bind (.pure _ _), doubled, by simp [Kind.parts],
      by simpa [Kind.map] using doubled.alike⟩
  | call callee args =>
    obtain ⟨callee', c₁, run, first⟩ := slot callee (by simp [Kind.slots, Kind.parts]) (.refl _)
    obtain ⟨args', range', c₂, run', second, stored⟩ :=
      list args (by simp [Kind.parts]) first.grown
    exact ⟨.call callee' args', range', c₂, run.bind (run'.bind (.pure _ _)),
      by simpa [Kind.slots, Kind.entries, Kind.parts] using first.append second,
      by simpa [Kind.parts] using stored,
      by simpa [Kind.map] using (first.append second).alike⟩
  | binary op left right =>
    obtain ⟨left', c₁, run, first⟩ := slot left (by simp [Kind.slots, Kind.parts]) (.refl _)
    obtain ⟨right', c₂, run', second⟩ := slot right (by simp [Kind.slots, Kind.parts]) first.grown
    exact ⟨.binary op left' right', range, c₂, run.bind (run'.bind (.pure _ _)),
      first.append second, by simp [Kind.parts],
      by simpa [Kind.map] using (first.append second).alike⟩
  | unary op operand =>
    obtain ⟨operand', c', run, doubled⟩ := slot operand (by simp [Kind.slots, Kind.parts]) (.refl _)
    exact ⟨.unary op operand', range, c', run.bind (.pure _ _), doubled, by simp [Kind.parts],
      by simpa [Kind.map] using doubled.alike⟩
  | assign op target value =>
    obtain ⟨target', c₁, run, first⟩ := slot target (by simp [Kind.slots, Kind.parts]) (.refl _)
    obtain ⟨value', c₂, run', second⟩ := slot value (by simp [Kind.slots, Kind.parts]) first.grown
    exact ⟨.assign op target' value', range, c₂, run.bind (run'.bind (.pure _ _)),
      first.append second, by simp [Kind.parts],
      by simpa [Kind.map] using (first.append second).alike⟩
  | array elements =>
    obtain ⟨elements', range', c', run, doubled, stored⟩ :=
      list elements (by simp [Kind.parts]) (.refl _)
    exact ⟨.array elements', range', c', run.bind (.pure _ _),
      by simpa [Kind.slots, Kind.entries, Kind.parts] using doubled, by simpa [Kind.parts] using stored,
      by simpa [Kind.map] using doubled.alike⟩
  | arrow params body =>
    obtain ⟨params', range', c₁, run, first, stored⟩ := list params (by simp [Kind.parts]) (.refl _)
    obtain ⟨body', c₂, run', second⟩ := slot body (by simp [Kind.slots, Kind.parts]) first.grown
    refine ⟨.arrow params' body', range', c₂, run.bind (run'.bind (.pure _ _)),
      by simpa [Kind.slots, Kind.entries, Kind.parts] using first.append second,
      by simpa [Kind.parts] using second.grown.list stored, ?_⟩
    have same := first.alike
    have same' := second.alike
    simp_all [Kind.map]

end Parts

theorem postorder_single (T : Tree Nat Name) :
    ([some T].filterMap id).flatMap Tree.postorder =
      T.children.flatMap Tree.postorder ++ [T.tag] := by
  rw [← Tree.postorder_eq]
  simp

/-- A node is copied after its parts: the copy comes last, and so does its pair. -/
theorem Doubled.node {c c₁ : Copying} {T : Tree Nat Name} {k : TreeKind} {old : NodeKind}
    {range : Range} {span : Span} (found : c.store.node? (some T.tag) = some ⟨old, span⟩)
    (label : old.label = T.kind.label)
    (parts : Doubled c c₁ T.kind.slots k.slots T.kind.entries.length)
    (stored : ∀ list, .inr list ∈ k.parts →
      c₁.store.list range = .ok (list.map (Option.map Tree.tag)))
    (alike : k.map (Option.map Tree.form) (List.map (Option.map Tree.form)) =
      T.kind.map (Option.map Tree.form) (List.map (Option.map Tree.form))) :
    Doubled c
      { store := c₁.store.push (k.map (Option.map Tree.tag) fun _ => range) span
        pairs := c₁.pairs.push (T.tag, c₁.store.size) }
      [some T] [some (.node c₁.store.size k)] 0 where
  grown := parts.grown.trans (evolves_push _ _ _)
  holds := by
    intro C mem
    cases List.mem_singleton.mp mem
    refine holds_iff.mpr ⟨shape_tree_iff.mpr ⟨range, span, node?_push_self _ _ _, stored⟩, ?_⟩
    intro child below
    exact (parts.holds child below).evolve (evolves_push _ _ _) fun _ _ => id
  alike := by
    have same : Tree.form (.node c₁.store.size k) = T.form := by
      unfold Tree.form at alike ⊢
      rw [Tree.relabel_eq, Tree.relabel_eq]
      exact congrArg (Tree.node ()) alike
    simpa using same
  fresh := by
    have le := parts.grown.size_le
    have last : c₁.store.size + 1 - c.store.size = (c₁.store.size - c.store.size) + 1 := by omega
    have place : c.store.size + (c₁.store.size - c.store.size) = c₁.store.size := by omega
    rw [size_push, postorder_single, last, List.range'_1_concat, place]
    exact congrArg (· ++ [c₁.store.size]) parts.fresh
  pairs := by
    obtain ⟨new, all, old, copies⟩ := parts.pairs
    refine ⟨new ++ [(T.tag, c₁.store.size)], by simp [all], ?_, ?_⟩
    · rw [List.map_append, old, postorder_single]
      rfl
    · rw [List.map_append, copies, postorder_single]
      rfl
  twins pair mem := by
    have last : c₁.store.Evolves (fun _ => False)
        (c₁.store.push (k.map (Option.map Tree.tag) fun _ => range) span) := evolves_push _ _ _
    rcases Array.mem_push.mp mem with before | rfl
    · exact (parts.twins pair before).imp_right fun alike => alike.evolve last
    · have labels := congrArg Kind.label alike
      rw [Kind.label_map, Kind.label_map] at labels
      refine .inr ⟨_, _, last.kept (parts.grown.kept found id) id, node?_push_self _ _ _, rfl, ?_⟩
      rw [Kind.label_map, labels, label]
  entries := by
    have all : ([some T].filterMap id).flatMap Tree.entries = T.entries := List.flatMap_singleton ..
    rw [lists_push, parts.entries, all, T.entries_eq, List.length_append]
    exact (Nat.add_assoc ..).trans (by rw [Nat.add_zero]; rfl)

/-- A tree can be copied if its lists can be stored and the depth suffices. -/
theorem copyable {T : Tree Nat Name} (fit : T.ListsFit) {fuel : Nat} (enough : T.height ≤ fuel) :
    Copyable fuel T := by
  induction T using Tree.induction generalizing fuel with
  | step T ih =>
    cases fuel with
    | zero =>
      have := T.height_pos
      omega
    | succ fuel =>
      intro c holds
      obtain ⟨range, span, found, lists⟩ := shape_tree_iff.mp holds.top
      have ready : KindReady fuel c T.kind range := by
        refine ⟨fun list mem => ⟨lists list mem, fit T T.self_mem_subtrees list mem⟩, fun u mem => ?_⟩
        have child : u ∈ T.children := List.mem_filterMap.mpr ⟨some u, mem, rfl⟩
        have lower := Tree.height_lt child
        exact ⟨ih u child (fit.child child) (by omega), holds.child child⟩
      obtain ⟨k, range', c₁, run, parts, stored, alike⟩ := copy_kind ready
      refine ⟨.node c₁.store.size k, _, ?_, parts.node found (Kind.label_map ..) stored alike⟩
      have last := CopyM.Goes.alloc (k.map (Option.map Tree.tag) fun _ => range') span c₁
      unfold copyNode
      exact .get (.lift (node_eq_ok_iff.mpr found) (run.bind (last.bind (.of_eq rfl (.refl _) rfl))))

/-! ## Finished copies -/

/-- A finished copy: the store grew, and the copy in it is new, of the same form, and paired. -/
structure Duplicate (s s' : Store) (part copy : Tree.Part Nat Name) (pairs : List (Nat × Nat)) :
    Prop where
  grown : s.Evolves (fun _ => False) s'
  holds : ∀ C ∈ copy, s'.Holds C
  alike : copy.map Tree.form = part.map Tree.form
  distinct : ∀ C ∈ copy, C.ids.Nodup
  fresh : ∀ C ∈ copy, ∀ x ∈ C.ids, s.size ≤ x ∧ x < s'.size
  olds : pairs.map Prod.fst = part.toList.flatMap Tree.postorder
  news : pairs.map Prod.snd = copy.toList.flatMap Tree.postorder
  range : pairs.map Prod.snd = List.range' s.size (s'.size - s.size)
  twins : ∀ pair ∈ pairs, s'.Twins pair.1 pair.2
  entries : s'.lists.size = s.lists.size + (part.toList.flatMap Tree.entries).length

theorem Duplicate.relabel {γ : Type} {f : Nat → γ} {s s' : Store} {part copy : Tree.Part Nat Name}
    {pairs : List (Nat × Nat)} (h : Duplicate s s' part copy pairs)
    (same : ∀ pair ∈ pairs, f pair.2 = f pair.1) :
    copy.map (Tree.relabel f) = part.map (Tree.relabel f) := by
  have tags :
      (copy.toList.flatMap Tree.postorder).map f = (part.toList.flatMap Tree.postorder).map f := by
    rw [← h.news, ← h.olds, List.map_map, List.map_map]
    exact List.map_congr_left same
  have alike := h.alike
  cases copy with
  | none =>
    cases part with
    | none => rfl
    | some T => cases alike
  | some D =>
    cases part with
    | none => cases alike
    | some T =>
      rw [Option.toList_some, Option.toList_some, List.flatMap_singleton, List.flatMap_singleton] at tags
      exact congrArg some (Tree.relabel_eq_of_postorder (Option.some.inj alike) tags)

namespace Duplicate

variable {s s' : Store} {part copy : Tree.Part Nat Name} {pairs : List (Nat × Nat)}
  {pair : Nat × Nat}

theorem nodup_news (h : Duplicate s s' part copy pairs) : (pairs.map Prod.snd).Nodup := by
  rw [h.range]
  exact List.nodup_range'

theorem new_bounds (h : Duplicate s s' part copy pairs) (mem : pair ∈ pairs) :
    s.size ≤ pair.2 ∧ pair.2 < s'.size := by
  have listed : pair.2 ∈ pairs.map Prod.snd := List.mem_map_of_mem mem
  rw [h.range, List.mem_range'_1] at listed
  omega

theorem old_lt (h : Duplicate s s' part copy pairs) (holds : ∀ T ∈ part, s.Holds T)
    (mem : pair ∈ pairs) : pair.1 < s.size := by
  have listed : pair.1 ∈ pairs.map Prod.fst := List.mem_map_of_mem mem
  rw [h.olds] at listed
  obtain ⟨T, here, inside⟩ := List.mem_flatMap.mp listed
  exact (holds T (Option.mem_toList.mp here)).lt_size (T.postorder_perm.mem_iff.mp inside)

theorem size_eq {T : Tree Nat Name} (h : Duplicate s s' (some T) copy pairs) :
    s'.size = s.size + T.ids.length := by
  have olds : pairs.map Prod.fst = T.postorder := by simpa using h.olds
  have count : pairs.length = T.ids.length := by
    rw [← T.postorder_perm.length_eq, ← olds, List.length_map]
  have range := congrArg List.length h.range
  rw [List.length_map, List.length_range', count] at range
  have grown := h.grown.size_le
  omega

theorem lists_size_eq {T : Tree Nat Name} (h : Duplicate s s' (some T) copy pairs) :
    s'.lists.size = s.lists.size + T.entries.length := by
  simpa using h.entries

theorem filled (h : Duplicate s s' part copy pairs) {x : Nat} (new : s.size ≤ x)
    (bound : x < s'.size) : x ∈ copy.toList.flatMap Tree.ids := by
  have listed : x ∈ copy.toList.flatMap Tree.postorder := by
    rw [← h.news, h.range, List.mem_range'_1]
    omega
  obtain ⟨C, here, inside⟩ := List.mem_flatMap.mp listed
  exact List.mem_flatMap.mpr ⟨C, here, C.postorder_perm.mem_iff.mp inside⟩

end Duplicate

theorem Doubled.duplicate {c c' : Copying} {part copy : Tree.Part Nat Name}
    (h : Doubled c c' [part] [copy] 0) (start : c.pairs = #[]) :
    Duplicate c.store c'.store part copy c'.pairs.toList := by
  have fresh : ∀ C ∈ copy, C.postorder =
      List.range' c.store.size (c'.store.size - c.store.size) := by
    rintro C ⟨⟩
    simpa using h.fresh
  have single (part : Tree.Part Nat Name) : [part].filterMap id = part.toList := by
    cases part <;> rfl
  obtain ⟨new, all, old, copies⟩ := h.pairs
  rw [start, List.nil_append] at all
  refine ⟨h.grown, fun C mem => h.holds C ?_, by simpa using h.alike, fun C mem => ?_,
    fun C mem x inside => ?_, ?_, ?_, ?_, fun pair mem => ?_, ?_⟩
  · rw [single]
    exact Option.mem_toList.mpr mem
  · rw [← C.postorder_perm.nodup_iff, fresh C mem]
    exact List.nodup_range'
  · rw [← C.postorder_perm.mem_iff, fresh C mem, List.mem_range'_1] at inside
    omega
  · rw [all, old, single]
  · rw [all, copies, single]
  · rw [all, copies, h.fresh]
  · refine (h.twins pair (Array.mem_toList_iff.mp mem)).resolve_left ?_
    rw [start]
    exact Array.not_mem_empty pair
  · rw [h.entries, single, Nat.add_zero]

/--
What a store holds can be copied deeply, if the lists can be stored and the store does not
get full.
-/
theorem deepCopy_eq {s : Store} {part : Tree.Part Nat Name} (holds : ∀ T ∈ part, s.Holds T)
    (fit : ∀ T ∈ part, T.ListsFit) :
    ∃ copy pairs s', Duplicate s s' part copy pairs ∧
      Attains (s.deepCopy (part.map Tree.tag)) (⟨copy.map Tree.tag, pairs⟩, s') s s' := by
  have ready : ∀ T ∈ part, Copyable (s.size + 1) T ∧ s.Holds T := by
    intro T mem
    have bound := (holds T mem).height_le
    exact ⟨copyable (fit T mem) (by omega), holds T mem⟩
  obtain ⟨copy, c', run, doubled⟩ := @copy_slot (s.size + 1) { store := s } part ready
  exact ⟨copy, c'.pairs.toList, c'.store, doubled.duplicate rfl, Attains.map run _⟩

/-- A tree is copied, unless the store has no room for a copy. -/
theorem Holds.deepCopy_attains {s : Store} {T : Tree Nat Name} (holds : s.Holds T)
    (fit : T.ListsFit) :
    ∃ C pairs s', Duplicate s s' (some T) (some C) pairs ∧
      Attains (s.deepCopy (some T.tag)) (⟨some C.tag, pairs⟩, s') s s' := by
  obtain ⟨copy, pairs, s', dup, run⟩ := @deepCopy_eq s (some T)
    (by rintro _ ⟨⟩; exact holds) (by rintro _ ⟨⟩; exact fit)
  cases copy with
  | none => cases dup.alike
  | some C => exact ⟨C, pairs, s', dup, run⟩

end Store

end BigLower
