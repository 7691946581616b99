import BigLower.Proofs.Compound

/-! # Where the nodes of a lowered tree come from

Every node of a lowered tree is one that was there before, a copy of one, or new. A
copied node stands at the same place in the copy as its original in the target, so the
places tell where copies come from. A tree is traced by way of its parts: parts that
share no node can be traced one by one.
-/

namespace BigLower

namespace Tree

/--
The tree has an assignment that stores the result of a new call of its target's copy
and something else; indices from `start` on are new.
-/
def TakesCopy (start : Nat) (T : Tree Nat Name) (target copy : Part Nat Name) : Prop :=
  ∃ u ∈ T.subtrees, u.tag < start ∧ ∃ call callee value,
    u.kind = .assign .plain target (some call) ∧ start ≤ call.tag ∧
      call.kind = .call callee [copy, value]

/--
For each node of a tree, the node that it is an occurrence of: that at the same place
of the target, if it is in the copy of a target, and otherwise itself.
-/
structure Origins (start : Nat) (T : Tree Nat Name) (origin : Nat → Nat) : Prop where
  old : ∀ x ∈ T.ids, x < start → origin x = x
  copied : ∀ target copy, T.TakesCopy start target copy →
    copy.map (relabel origin) = target.map (relabel origin)
  own : ∀ x ∈ T.ids, origin x = x ∨
    ∃ target copy, T.TakesCopy start target copy ∧ ∃ D ∈ copy, x ∈ D.ids

section Origins

variable {start : Nat} {T c : Tree Nat Name} {target copy : Part Nat Name} {origin : Nat → Nat}

theorem TakesCopy.of_subtree (h : c.TakesCopy start target copy) (below : c ∈ T.subtrees) :
    T.TakesCopy start target copy := by
  obtain ⟨u, inside, rest⟩ := h
  exact ⟨u, subtrees_trans below inside, rest⟩

theorem TakesCopy.mem_ids (h : T.TakesCopy start target copy) {D : Tree Nat Name}
    (mem : D ∈ target ∨ D ∈ copy) {x : Nat} (inside : x ∈ D.ids) : x ∈ T.ids := by
  obtain ⟨u, below, -, call, callee, value, assign, -, kind⟩ := h
  apply mem_ids_of_subtree below
  rcases mem with rfl | rfl
  · exact mem_ids_of_child (child_of_assign assign List.mem_cons_self) inside
  · have result : call ∈ u.children :=
      child_of_assign assign (List.mem_cons_of_mem _ List.mem_cons_self)
    exact mem_ids_of_child result (mem_ids_of_child (child_of_arg kind List.mem_cons_self) inside)

theorem Origins.congr (h : T.Origins start origin) {origin' : Nat → Nat}
    (same : ∀ x ∈ T.ids, origin' x = origin x) : T.Origins start origin' where
  old x mem before := (same x mem).trans (h.old x mem before)
  copied target copy takes := by
    have alike {part : Part Nat Name} (side : ∀ D ∈ part, D ∈ target ∨ D ∈ copy) :
        part.map (relabel origin') = part.map (relabel origin) :=
      relabelPart_congr fun D mem x inside => same x (takes.mem_ids (side D mem) inside)
    rw [alike fun D => .inr, alike fun D => .inl, h.copied target copy takes]
  own x mem := by
    rw [same x mem]
    exact h.own x mem

theorem origins_id (plain : ∀ u ∈ T.subtrees, ∀ op target value, u.kind ≠ .assign op target value) :
    T.Origins start id where
  old _ _ _ := rfl
  copied := by
    rintro target copy ⟨u, below, -, call, callee, value, assign, -⟩
    exact (plain u below _ _ _ assign).elim
  own _ _ := .inl rfl

/-- The nodes come from where they do in the children, if the top is itself and takes no copy. -/
theorem Origins.node (each : ∀ c ∈ T.children, c.Origins start origin) (top : origin T.tag = T.tag)
    (older : ∀ target call, T.kind = .assign .plain target (some call) → call.tag < start) :
    T.Origins start origin where
  old x mem before := by
    rcases mem_ids_iff.mp mem with rfl | ⟨c, child, inside⟩
    · exact top
    · exact (each c child).old x inside before
  copied target copy takes := by
    obtain ⟨u, below, bound, call, callee, value, assign, new, kind⟩ := takes
    rcases mem_subtrees_iff.mp below with rfl | ⟨c, child, inside⟩
    · have := older target call assign
      omega
    · exact (each c child).copied target copy
        ⟨u, inside, bound, call, callee, value, assign, new, kind⟩
  own x mem := by
    rcases mem_ids_iff.mp mem with rfl | ⟨c, child, inside⟩
    · exact .inl top
    · rcases (each c child).own x inside with same | ⟨target, copy, takes, copied⟩
      · exact .inl same
      · exact .inr ⟨target, copy, takes.of_subtree (child_mem_subtrees child), copied⟩

end Origins

/-! ## Traces of lowered trees -/

/-- The nodes of a tree can be traced, and those of a sort are found in this order. -/
def Traced (start : Nat) (p : Nat → Bool) (T : Tree Nat Name) (found : List Nat) : Prop :=
  ∃ origin, T.Origins start origin ∧ (T.postorder.map origin).filter p = found

section Traced

variable {start : Nat} {p : Nat → Bool} {trees : List (Tree Nat Name)}
  {f : Tree Nat Name → Tree Nat Name} {g : Tree Nat Name → List Nat}

theorem postorder_map_congr {T : Tree Nat Name} {origin origin' : Nat → Nat}
    (same : ∀ x ∈ T.ids, origin' x = origin x) : T.postorder.map origin' = T.postorder.map origin :=
  List.map_congr_left fun x mem => same x (T.postorder_perm.mem_iff.mp mem)

/-- Trees that share no node can be traced together. -/
theorem exists_origin (distinct : (trees.flatMap fun c => (f c).ids).Nodup)
    (each : ∀ c ∈ trees, (f c).Traced start p (g c)) :
    ∃ origin, (∀ c ∈ trees, (f c).Origins start origin ∧
      ((f c).postorder.map origin).filter p = g c) ∧
      ∀ x, (∀ c ∈ trees, x ∉ (f c).ids) → origin x = x := by
  induction trees with
  | nil => exact ⟨id, by simp, fun _ _ => rfl⟩
  | cons first rest ih =>
    rw [List.flatMap_cons, List.nodup_append] at distinct
    obtain ⟨later, found, outside⟩ :=
      ih distinct.2.1 fun c mem => each c (List.mem_cons_of_mem first mem)
    obtain ⟨here, origins, seen⟩ := each first List.mem_cons_self
    let origin (x : Nat) : Nat := if x ∈ (f first).ids then here x else later x
    have inside : ∀ x ∈ (f first).ids, origin x = here x := fun x mem => if_pos mem
    have beyond : ∀ c ∈ rest, ∀ x ∈ (f c).ids, origin x = later x := by
      intro c mem x below
      apply if_neg
      intro also
      exact distinct.2.2 x also x (List.mem_flatMap.mpr ⟨c, mem, below⟩) rfl
    refine ⟨origin, fun c mem => ?_, fun x none => ?_⟩
    · rcases List.mem_cons.mp mem with rfl | mem
      · exact ⟨origins.congr inside, by rw [postorder_map_congr inside, seen]⟩
      · have same := beyond c mem
        exact ⟨(found c mem).1.congr same, by rw [postorder_map_congr same, (found c mem).2]⟩
    · have new : x ∉ (f first).ids := none first List.mem_cons_self
      exact (if_neg new).trans (outside x fun c mem => none c (List.mem_cons_of_mem first mem))

theorem filter_flatMap_postorder {origin : Nat → Nat}
    (found : ∀ c ∈ trees, ((f c).postorder.map origin).filter p = g c) :
    ((trees.flatMap fun c => (f c).postorder).map origin).filter p = trees.flatMap g := by
  rw [List.map_flatMap, List.filter_flatMap]
  exact List.flatMap_congr found

/--
A tree that takes no copy at the top is traced by way of its children. Those that come
first may be bare, without anything to be found or copied.
-/
theorem traced_node {T : Tree Nat Name} {bare : List (Tree Nat Name)} (distinct : T.ids.Nodup)
    (children : T.children = bare ++ trees.map f)
    (each : ∀ c ∈ trees, (f c).Traced start p (g c))
    (nothing : ∀ b ∈ bare, ∀ u ∈ b.subtrees, p u.tag = false ∧
      ∀ op target value, u.kind ≠ .assign op target value)
    (older : ∀ target call, T.kind = .assign .plain target (some call) → call.tag < start) :
    T.Traced start p (trees.flatMap g ++ [T.tag].filter p) := by
  have ids : T.children.flatMap Tree.ids =
      bare.flatMap Tree.ids ++ trees.flatMap fun c => (f c).ids := by
    rw [children, List.flatMap_append, List.flatMap_map]
  have below := nodup_children distinct
  rw [ids, List.nodup_append] at below
  obtain ⟨origin, found, outside⟩ := exists_origin below.2.1 each
  have bareIds : ∀ b ∈ bare, ∀ x ∈ b.ids, origin x = x := by
    intro b mem x inside
    apply outside
    intro c here also
    exact below.2.2 x (List.mem_flatMap.mpr ⟨b, mem, inside⟩) x
      (List.mem_flatMap.mpr ⟨c, here, also⟩) rfl
  have top : origin T.tag = T.tag := by
    apply outside
    intro c here also
    apply tag_not_mem_below distinct
    rw [ids]
    exact List.mem_append_right _ (List.mem_flatMap.mpr ⟨c, here, also⟩)
  refine ⟨origin, .node (fun c child => ?_) top older, ?_⟩
  · rw [children] at child
    rcases List.mem_append.mp child with mem | mem
    · exact (origins_id fun u inside => (nothing c mem u inside).2).congr (bareIds c mem)
    · obtain ⟨c, here, rfl⟩ := List.mem_map.mp mem
      exact (found c here).1
  · have silent : ((bare.flatMap postorder).map origin).filter p = [] := by
      apply List.filter_eq_nil_iff.mpr
      intro y mem
      obtain ⟨x, inside, rfl⟩ := List.mem_map.mp mem
      obtain ⟨b, here, inside⟩ := List.mem_flatMap.mp inside
      have deep := b.postorder_perm.mem_iff.mp inside
      obtain ⟨u, below, rfl⟩ := List.mem_map.mp deep
      rw [bareIds b here _ deep, (nothing b here u below).1]
      exact Bool.false_ne_true
    have rest := filter_flatMap_postorder fun c mem => (found c mem).2
    rw [postorder_eq, children, List.flatMap_append, List.flatMap_map, List.map_append,
      List.map_append, List.filter_append, List.filter_append, silent, rest, List.map_singleton, top]
    rfl

/-- Nothing is to be found in the member of the library that is called. -/
theorem traced_libraryCall {start x o m : Nat} {p : Nat → Bool} {library property : Name}
    {args : List (Part Nat Name)} {f : Tree Nat Name → Tree Nat Name} {g : Tree Nat Name → List Nat}
    (distinct : (node x (.call (some (libraryMember library property o m))
      (args.map (Option.map f)))).ids.Nodup)
    (quiet : p o = false ∧ p m = false)
    (each : ∀ c, some c ∈ args → (f c).Traced start p (g c)) :
    (node x (.call (some (libraryMember library property o m)) (args.map (Option.map f)))).Traced
      start p ((args.filterMap id).flatMap g ++ [x].filter p) := by
  have children : (node x (.call (some (libraryMember library property o m))
      (args.map (Option.map f)))).children =
      [libraryMember library property o m] ++ (args.filterMap id).map f := by
    rw [children_of_call rfl, List.filterMap_map, List.map_filterMap]
    rfl
  refine traced_node distinct children (fun c mem => each c (by simpa using mem)) ?_ nofun
  intro b mem u below
  cases List.mem_singleton.mp mem
  have listed : (libraryMember library property o m).subtrees =
      [libraryMember library property o m, .node o (.ident library)] := rfl
  rcases List.mem_pair.mp (listed ▸ below) with rfl | rfl
  · exact ⟨quiet.2, nofun⟩
  · exact ⟨quiet.1, nofun⟩

theorem postorderPart_eq_of_relabel {origin : Nat → Nat} {part copy : Part Nat Name}
    (same : copy.map (relabel origin) = part.map (relabel origin)) :
    (copy.toList.flatMap postorder).map origin = (part.toList.flatMap postorder).map origin := by
  have list (part : Part Nat Name) : (part.toList.flatMap postorder).map origin =
      (part.map (relabel origin)).toList.flatMap postorder := by
    cases part with
    | none => rfl
    | some T => simp [postorder_relabel]
  rw [list, list, same]

/-- A list without repetitions can be sent to any list that is as long. -/
theorem exists_map_eq {list list' : List Nat} (distinct : list.Nodup)
    (length : list.length = list'.length) : ∃ h : Nat → Nat, list.map h = list' := by
  induction list generalizing list' with
  | nil =>
    cases list' with
    | nil => exact ⟨id, rfl⟩
    | cons => cases length
  | cons x rest ih =>
    cases list' with
    | nil => cases length
    | cons y rest' =>
      obtain ⟨outside, distinct⟩ := List.nodup_cons.mp distinct
      obtain ⟨h, same⟩ := ih distinct (Nat.succ.inj length)
      refine ⟨fun z => if z = x then y else h z, ?_⟩
      rw [List.map_cons, if_pos rfl, ← same]
      refine congrArg (y :: ·) (List.map_congr_left fun z mem => if_neg ?_)
      rintro rfl
      exact outside mem

theorem exists_relabel_eq {part copy : Part Nat Name} (alike : copy.map form = part.map form)
    (distinct : ∀ D ∈ copy, D.ids.Nodup) (origin : Nat → Nat) :
    ∃ h : Nat → Nat, copy.map (relabel h) = part.map (relabel origin) := by
  cases copy with
  | none =>
    cases part with
    | none => exact ⟨id, rfl⟩
    | some T => cases alike
  | some D =>
    cases part with
    | none => cases alike
    | some T =>
      have forms : D.form = T.form := Option.some.inj alike
      obtain ⟨h, same⟩ := @exists_map_eq D.postorder (T.postorder.map origin)
        (D.postorder_perm.nodup_iff.mpr (distinct D rfl))
        (by rw [List.length_map, length_postorder_of_form forms])
      exact ⟨h, congrArg some (relabel_eq_of_postorder forms same)⟩

end Traced

/-! ## Lowered assignments -/

section LoweredAssign

variable {start x o m call : Nat} {p : Nat → Bool} {library property : Name}
  {target value copy : Part Nat Name} {f : Tree Nat Name → Tree Nat Name}
  {g : Tree Nat Name → List Nat}

theorem postorder_loweredAssign (target value : Part Nat Name) :
    (loweredAssign x library property o m call target copy value).postorder =
      target.toList.flatMap postorder ++ ([o, m] ++ copy.toList.flatMap postorder ++
        value.toList.flatMap postorder ++ [call]) ++ [x] := by
  have inner : (Tree.node call (.call (some (libraryMember library property o m))
      [copy, value])).children =
      libraryMember library property o m :: (copy.toList ++ value.toList) := by
    rw [children_of_call rfl]
    cases copy <;> cases value <;> rfl
  have member : (libraryMember library property o m).postorder = [o, m] := rfl
  rw [postorder_eq, children_loweredAssign, List.flatMap_append, List.flatMap_singleton,
    postorder_eq, inner, List.flatMap_cons, member, List.flatMap_append, List.append_assoc [o, m]]
  rfl

variable
  (distinct : (loweredAssign x library property o m call (target.map f) copy (value.map f)).ids.Nodup)
  (old : x < start) (new : ∀ y ∈ [o, m, call], start ≤ y)
  (fresh : ∀ D ∈ copy, ∀ y ∈ D.ids, start ≤ y)

include distinct old new fresh

theorem origins_loweredAssign {origin : Nat → Nat}
    (each : ∀ c ∈ target.toList ++ value.toList, (f c).Origins start origin)
    (same : copy.map (relabel origin) = (target.map f).map (relabel origin))
    (own : ∀ y ∈ x :: [o, m, call], origin y = y) :
    (loweredAssign x library property o m call (target.map f) copy (value.map f)).Origins start
      origin := by
  let whole := loweredAssign x library property o m call (target.map f) copy (value.map f)
  -- A node is the top, one of the parts, new, or in the copy.
  have place {y : Nat} (mem : y ∈ whole.ids) : y ∈ x :: [o, m, call] ∨
      (∃ c ∈ target.toList ++ value.toList, y ∈ (f c).ids) ∨ ∃ D ∈ copy, y ∈ D.ids := by
    rcases List.mem_cons.mp (ids_loweredAssign_map.mem_iff.mp mem) with rfl | mem
    · exact .inl List.mem_cons_self
    · rcases List.mem_append.mp mem with part | mem
      · exact .inr (.inl (List.mem_flatMap.mp part))
      · rcases List.mem_append.mp mem with added | copied
        · exact .inl (List.mem_cons_of_mem x added)
        · obtain ⟨D, here, inside⟩ := List.mem_flatMap.mp copied
          exact .inr (.inr ⟨D, Option.mem_toList.mp here, inside⟩)
  refine ⟨fun y mem bound => ?_, ?_, fun y mem => ?_⟩
  · rcases place mem with added | ⟨c, here, inside⟩ | ⟨D, here, inside⟩
    · exact own y added
    · exact (each c here).old y inside bound
    · have := fresh D here y inside
      omega
  · rintro target' copy' ⟨u, inside, bound, result, callee, value', assign, beyond, kind⟩
    rcases place (List.mem_map_of_mem inside) with added | ⟨c, here, mem⟩ | ⟨D, here, mem⟩
    · rcases List.mem_cons.mp added with tag | added
      · cases eq_of_tag_eq distinct inside whole.self_mem_subtrees tag
        cases assign
        cases kind
        exact same
      · have := new u.tag added
        omega
    · obtain ⟨v, deep, tag⟩ := List.mem_map.mp mem
      have parts : f c ∈ whole.subtrees := mem_subtrees_loweredAssign here
      have one := eq_of_tag_eq distinct (subtrees_trans parts deep) inside tag
      subst one
      exact (each c here).copied target' copy'
        ⟨v, deep, bound, result, callee, value', assign, beyond, kind⟩
    · have := fresh D here _ mem
      omega
  · rcases place mem with added | ⟨c, here, inside⟩ | ⟨D, here, inside⟩
    · exact .inl (own y added)
    · rcases (each c here).own y inside with same | ⟨target', copy', takes, copied⟩
      · exact .inl same
      · exact .inr ⟨target', copy', takes.of_subtree (mem_subtrees_loweredAssign here), copied⟩
    · exact .inr ⟨target.map f, copy, ⟨whole, whole.self_mem_subtrees, old, _, _, _, rfl,
        new call (by simp), rfl⟩, D, here, inside⟩

variable (alike : copy.map form = (target.map f).map form)
  (each : ∀ c ∈ target.toList ++ value.toList, (f c).Traced start p (g c))

include alike each

/-- The copy of a target is traced to the target. -/
theorem exists_origin_loweredAssign : ∃ origin,
    (loweredAssign x library property o m call (target.map f) copy (value.map f)).Origins start
      origin ∧
    copy.map (relabel origin) = (target.map f).map (relabel origin) ∧
    (∀ c ∈ target.toList ++ value.toList, ((f c).postorder.map origin).filter p = g c) ∧
    ∀ y ∈ x :: [o, m, call], origin y = y := by
  have once := List.nodup_cons.mp (ids_loweredAssign_map.nodup_iff.mp distinct)
  have apart := List.nodup_append.mp once.2
  have apart' := List.nodup_append.mp apart.2.1
  obtain ⟨base, found, outside⟩ := exists_origin apart.1 each
  have copyOnce : ∀ D ∈ copy, D.ids.Nodup := by
    rintro D ⟨⟩
    simpa using apart'.2.1
  obtain ⟨h, same⟩ := exists_relabel_eq alike copyOnce base
  let copies := copy.toList.flatMap ids
  let origin (y : Nat) : Nat := if y ∈ copies then h y else base y
  have inParts {c : Tree Nat Name} (mem : c ∈ target.toList ++ value.toList) {y : Nat}
      (inside : y ∈ (f c).ids) : origin y = base y := by
    apply if_neg
    intro also
    exact apart.2.2 y (List.mem_flatMap.mpr ⟨c, mem, inside⟩) y (List.mem_append_right _ also) rfl
  have own : ∀ y ∈ x :: [o, m, call], origin y = y := by
    have away {y : Nat} (not : y ∉ copies)
        (elsewhere : y ∉ (target.toList ++ value.toList).flatMap fun c => (f c).ids) :
        origin y = y := by
      refine (if_neg not).trans (outside y fun c mem inside => elsewhere ?_)
      exact List.mem_flatMap.mpr ⟨c, mem, inside⟩
    intro y mem
    rcases List.mem_cons.mp mem with rfl | mem
    · apply away
      · exact fun also => once.1 (List.mem_append_right _ (List.mem_append_right _ also))
      · exact fun also => once.1 (List.mem_append_left _ also)
    · apply away
      · exact fun also => apart'.2.2 y mem y also rfl
      · exact fun also => apart.2.2 y also y (List.mem_append_left _ mem) rfl
  have copySame : copy.map (relabel origin) = (target.map f).map (relabel origin) := by
    calc copy.map (relabel origin)
      _ = copy.map (relabel h) := relabelPart_congr fun D mem y inside =>
        if_pos (List.mem_flatMap.mpr ⟨D, Option.mem_toList.mpr mem, inside⟩)
      _ = (target.map f).map (relabel base) := same
      _ = (target.map f).map (relabel origin) := relabelPart_congr fun D mem y inside => by
        obtain ⟨c, rfl, rfl⟩ := Option.map_eq_some_iff.mp mem
        exact (inParts (by simp) inside).symm
  refine ⟨origin, origins_loweredAssign distinct old new fresh (fun c mem => ?_) copySame own,
    copySame, fun c mem => ?_, own⟩
  · exact (found c mem).1.congr fun y => inParts mem
  · rw [postorder_map_congr fun y => inParts mem]
    exact (found c mem).2

/-- What the target does is found twice, before what the value does. -/
theorem traced_loweredAssign (quiet : ∀ y, start ≤ y → p y = false) :
    (loweredAssign x library property o m call (target.map f) copy (value.map f)).Traced start p
      (target.toList.flatMap g ++ ((target.toList ++ value.toList).flatMap g ++ [x].filter p)) := by
  obtain ⟨origin, origins, same, found, own⟩ :=
    exists_origin_loweredAssign distinct old new fresh alike each
  have part {part : Part Nat Name} (mem : ∀ c ∈ part, c ∈ target.toList ++ value.toList) :
      (((part.map f).toList.flatMap postorder).map origin).filter p = part.toList.flatMap g := by
    have trees : (part.map f).toList.flatMap postorder =
        part.toList.flatMap fun c => (f c).postorder := by
      cases part <;> rfl
    rw [trees]
    exact filter_flatMap_postorder fun c here => found c (mem c (Option.mem_toList.mp here))
  have first := @part target fun c mem => List.mem_append_left _ (Option.mem_toList.mpr mem)
  have second := @part value fun c mem => List.mem_append_right _ (Option.mem_toList.mpr mem)
  have twice : ((copy.toList.flatMap postorder).map origin).filter p = target.toList.flatMap g := by
    rw [← first, postorderPart_eq_of_relabel same]
  have added {y : Nat} (mem : y ∈ [o, m, call]) : p (origin y) = false := by
    rw [own y (List.mem_cons_of_mem x mem)]
    exact quiet y (new y mem)
  refine ⟨origin, origins, ?_⟩
  rw [postorder_loweredAssign]
  simp only [List.map_append, List.filter_append, first, second, twice, List.map_cons, List.map_nil]
  rw [own x List.mem_cons_self]
  simp [added, List.filter_cons]

end LoweredAssign

end Tree

end BigLower
