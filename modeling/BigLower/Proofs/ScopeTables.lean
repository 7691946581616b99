import BigLower.Proofs.Scoping
import Mathlib.Logic.Relation

/-! # The tables of scopes agree

Resolving fills four tables: scopes, bindings, references and declarations. Whatever
the store holds, well formed or not, each step of it keeps them in agreement: parents
are older, the names in a scope are those of the bindings that are in it, and nodes
are tied to bindings of their own names. Copies of references keep this, too.
-/

namespace BigLower

def Kind.declaredName? {ν σ ρ : Type} : Kind ν σ ρ → Option ν
  | .declarator name _ | .param name | .function name _ _ | .importDefault name _ => some name
  | _ => none

def Store.Declares (s : Store) (d : Declaration) : Prop :=
  ∃ k, s.kind (some d.node) = .ok k ∧ k.declaredName? = some d.name

theorem foldlM_keeps {α β : Type} {step : β → α → Except Fault β} (Kept : β → Prop) {list : List α}
    (each : ∀ a ∈ list, ∀ b b', Kept b → step b a = .ok b' → Kept b') {b b' : β} (start : Kept b)
    (run : list.foldlM step b = .ok b') : Kept b' := by
  induction list generalizing b with
  | nil =>
    cases run
    exact start
  | cons a rest ih =>
    rw [List.foldlM_cons] at run
    obtain ⟨b₁, first, later⟩ := bind_eq_ok_iff.mp run
    exact ih (fun a mem => each a (List.mem_cons_of_mem _ mem))
      (each a List.mem_cons_self b b₁ start first) later

namespace Scopes

/-! ## Tables that agree -/

structure Valid (s : Store) (t : Scopes) : Prop where
  first : ∃ entry, t.scopes[0]? = some entry ∧ entry.kind = .program
  /-- Only the first scope has no parent, and a parent is older. -/
  root : ∀ (i : Nat) entry, t.scopes[i]? = some entry → (entry.parent = none ↔ i = 0)
  older : ∀ (i : Nat) entry p, t.scopes[i]? = some entry → entry.parent = some p → p < i
  /-- The names in a scope are those of the bindings in it. -/
  names : ∀ i name (b : Nat), t.binding? i name = some b ↔
    ∃ entry, t.bindings[b]? = some entry ∧ entry.scope = i ∧ entry.name = name
  references : ∀ slot (b : Nat), t.bindingOf slot = some b → ∃ name entry,
    s.kind slot = .ok (.ident name) ∧ t.bindings[b]? = some entry ∧ entry.name = name
  declarations : ∀ slot (b : Nat), t.declaredBy slot = some b → ∃ k entry,
    s.kind slot = .ok k ∧ t.bindings[b]? = some entry ∧ k.declaredName? = some entry.name
  /-- A `var` is in a scope that hoists it. -/
  hoisted : ∀ (b : Nat) entry, t.bindings[b]? = some entry → entry.kind = .var →
    ∃ scope, t.scopes[entry.scope]? = some scope ∧ scope.kind ≠ .block

/-- One step of resolving, or of noting that a copy refers to what the copied identifier refers to. -/
inductive Step (s : Store) : Scopes → Scopes → Prop
  | openScope (t : Scopes) (kind : ScopeKind) {scope : Nat} :
      scope < t.scopes.size → Step s t (t.openScope kind (some scope)).2
  | declare (t : Scopes) {scope : Nat} {entry : Scope} {d : Declaration} :
      t.scopes[scope]? = some entry → (d.kind = .var → entry.kind ≠ .block) → s.Declares d →
        Step s t (t.declare scope d)
  | refer (t : Scopes) {x : Nat} (scope : Nat) {name : Name} :
      s.kind (some x) = .ok (.ident name) → Step s t (t.refer x scope name)
  | copyReference (t : Scopes) {copy source : Slot} {name : Name} :
      s.kind copy = .ok (.ident name) → s.kind source = .ok (.ident name) →
        Step s t (t.copyReference copy source)

section Steps

variable {s : Store} {t t' : Scopes}

theorem valid_start (s : Store) : Valid s (({} : Scopes).openScope .program none).2 where
  first := ⟨_, rfl, rfl⟩
  root i entry found := by
    cases i with
    | zero =>
      cases found
      exact iff_of_true rfl rfl
    | succ i => simp [openScope] at found
  older i entry p found parent := by
    cases i with
    | zero =>
      cases found
      cases parent
    | succ i => simp [openScope] at found
  names i name b := by
    cases i <;> simp [openScope, binding?]
  references slot b found := by simp [openScope, bindingOf] at found
  declarations slot b found := by
    cases slot <;> simp [openScope, declaredBy] at found
  hoisted b entry found := by simp [openScope] at found

theorem Valid.scope_lt (h : t.Valid s) {b : Nat} {entry : Binding}
    (found : t.bindings[b]? = some entry) : entry.scope < t.scopes.size := by
  have own := (h.names entry.scope entry.name b).mpr ⟨entry, found, rfl, rfl⟩
  unfold binding? at own
  obtain ⟨scope, there, -⟩ := Option.bind_eq_some_iff.mp own
  exact (Array.getElem?_eq_some_iff.mp there).choose

theorem Valid.openScope (h : t.Valid s) (kind : ScopeKind) {scope : Nat}
    (outer : scope < t.scopes.size) : (t.openScope kind (some scope)).2.Valid s := by
  have grown := t.extends_openScope kind (some scope)
  have size := h.first.choose_spec.1
  have positive : 0 < t.scopes.size := (Array.getElem?_eq_some_iff.mp size).choose
  have cases {i : Nat} {entry : Scope}
      (found : (t.openScope kind (some scope)).2.scopes[i]? = some entry) :
      (i = t.scopes.size ∧ entry = { kind, parent := some scope }) ∨ t.scopes[i]? = some entry := by
    simp only [Scopes.openScope, Array.getElem?_push] at found
    split at found
    · exact .inl ⟨‹_›, (Option.some.inj found).symm⟩
    · exact .inr found
  refine ⟨?_, fun i entry found => ?_, fun i entry p found parent => ?_, fun i name b => ?_,
    h.references, h.declarations, fun b entry found var => ?_⟩
  · obtain ⟨entry, found, own⟩ := h.first
    exact ⟨entry, (grown.kept 0 positive).trans found, own⟩
  · rcases cases found with ⟨rfl, rfl⟩ | old
    · simp [Nat.ne_of_gt positive]
    · exact h.root i entry old
  · rcases cases found with ⟨rfl, rfl⟩ | old
    · cases parent
      exact outer
    · exact h.older i entry p old parent
  · by_cases bound : i < t.scopes.size
    · rw [grown.binding? bound]
      exact h.names i name b
    · have absent : (t.openScope kind (some scope)).2.binding? i name = none := by
        by_cases last : i = t.scopes.size <;>
          simp [Scopes.openScope, Scopes.binding?, Array.getElem?_push, last, bound]
      rw [absent]
      refine ⟨by simp, ?_⟩
      rintro ⟨entry, found, rfl, -⟩
      exact (bound (h.scope_lt found)).elim
  · obtain ⟨place, there, other⟩ := h.hoisted b entry found var
    exact ⟨place, (grown.kept _ (h.scope_lt found)).trans there, other⟩

/-! ## Declaring -/

theorem declare_of_some {scope : Nat} {d : Declaration} {b : Nat}
    (known : t.binding? scope d.name = some b) :
    t.declare scope d = { t with declarations := t.declarations.insert d.node b } := by
  unfold declare
  rw [known]

theorem binding?_declare {scope : Nat} {d : Declaration} (there : scope < t.scopes.size)
    (new : t.binding? scope d.name = none) (i : Nat) (name : Name) :
    (t.declare scope d).binding? i name =
      if i = scope ∧ d.name = name then some t.bindings.size else t.binding? i name := by
  unfold declare
  rw [new]
  by_cases same : i = scope
  · subst same
    rw [binding?_modify t i d.name name _ there]
    simp
  · simp [binding?, Array.getElem?_modify, same, Ne.symm same]

theorem bindings_declare {scope : Nat} {d : Declaration} (new : t.binding? scope d.name = none)
    (b : Nat) : (t.declare scope d).bindings[b]? =
      if b = t.bindings.size then some ⟨d.name, d.kind, d.node, scope⟩ else t.bindings[b]? := by
  unfold declare
  rw [new, Array.getElem?_push]

theorem declaredBy_declare (scope : Nat) (d : Declaration) (slot : Slot) :
    (t.declare scope d).declaredBy slot = if slot = some d.node then
      some ((t.binding? scope d.name).getD t.bindings.size) else t.declaredBy slot := by
  cases slot with
  | none => simp [declaredBy]
  | some x =>
    unfold declare
    by_cases same : x = d.node
    · cases t.binding? scope d.name <;> simp [declaredBy, same]
    · cases t.binding? scope d.name <;>
        simp [declaredBy, Std.TreeMap.getElem?_insert, same, Ne.symm same]

/-- The binding that a declaration makes or finds is one of its name. -/
theorem Valid.binding_declare (h : t.Valid s) (scope : Nat) (d : Declaration) :
    ∃ entry, (t.declare scope d).bindings[(t.binding? scope d.name).getD t.bindings.size]? = some entry ∧
      entry.name = d.name := by
  cases known : t.binding? scope d.name with
  | none => exact ⟨⟨d.name, d.kind, d.node, scope⟩, by simp [bindings_declare known], rfl⟩
  | some b =>
    obtain ⟨entry, found, -, same⟩ := (h.names scope d.name b).mp known
    rw [declare_of_some known]
    exact ⟨entry, found, same⟩

theorem scopes_of_declare {scope i : Nat} {d : Declaration} {entry : Scope}
    (found : (t.declare scope d).scopes[i]? = some entry) :
    ∃ old, t.scopes[i]? = some old ∧ entry.kind = old.kind ∧ entry.parent = old.parent := by
  have size : (t.declare scope d).scopes.size = t.scopes.size := by
    unfold Scopes.declare
    split <;> simp
  have inside : i < t.scopes.size := size ▸ (Array.getElem?_eq_some_iff.mp found).choose
  have old : t.scopes[i]? = some t.scopes[i] := Array.getElem?_eq_getElem inside
  obtain ⟨entry', found', kind, parent⟩ := (extends_declare t scope d).places i _ old
  cases found.symm.trans found'
  exact ⟨_, old, kind, parent⟩

/-- After a declaration the scopes still tell which bindings are in them. -/
theorem Valid.names_declare (h : t.Valid s) {scope : Nat} (there : scope < t.scopes.size)
    (d : Declaration) (i : Nat) (name : Name) (b : Nat) :
    (t.declare scope d).binding? i name = some b ↔
      ∃ entry, (t.declare scope d).bindings[b]? = some entry ∧ entry.scope = i ∧
        entry.name = name := by
  cases known : t.binding? scope d.name with
  | some b' =>
    rw [declare_of_some known]
    exact h.names i name b
  | none =>
    rw [binding?_declare there known, bindings_declare known]
    by_cases own : i = scope ∧ d.name = name
    · obtain ⟨rfl, rfl⟩ := own
      have absent :
          ¬ ∃ entry, t.bindings[b]? = some entry ∧ entry.scope = i ∧ entry.name = d.name := by
        rw [← h.names i d.name b, known]
        simp
      by_cases last : b = t.bindings.size
      · simp [last]
      · simpa [last, Ne.symm last] using absent
    · rw [if_neg own]
      by_cases last : b = t.bindings.size
      · subst last
        have absent : t.binding? i name ≠ some t.bindings.size := by
          rw [ne_eq, h.names i name]
          simp
        simp only [absent, if_true, Option.some.injEq, exists_eq_left', false_iff]
        rintro ⟨rfl, rfl⟩
        exact own ⟨rfl, rfl⟩
      · rw [if_neg last]
        exact h.names i name b

theorem bindings_of_declare {scope b : Nat} {d : Declaration} {entry : Binding}
    (found : (t.declare scope d).bindings[b]? = some entry) :
    t.bindings[b]? = some entry ∨ entry = ⟨d.name, d.kind, d.node, scope⟩ := by
  cases known : t.binding? scope d.name with
  | some b' =>
    rw [declare_of_some known] at found
    exact .inl found
  | none =>
    rw [bindings_declare known] at found
    split at found
    · exact .inr (Option.some.inj found).symm
    · exact .inl found

theorem Valid.declare (h : t.Valid s) {scope : Nat} {entry : Scope} {d : Declaration}
    (there : t.scopes[scope]? = some entry) (hoists : d.kind = .var → entry.kind ≠ .block)
    (declares : s.Declares d) : (t.declare scope d).Valid s := by
  have bound : scope < t.scopes.size := (Array.getElem?_eq_some_iff.mp there).choose
  have grown := extends_declare t scope d
  refine ⟨?_, fun i entry' found => ?_, fun i entry' p found parent => ?_, h.names_declare bound d,
    fun slot b refers => ?_, fun slot b declared => ?_, fun b entry' found var => ?_⟩
  · obtain ⟨first, found, own⟩ := h.first
    obtain ⟨first', found', kind, -⟩ := grown.places 0 first found
    exact ⟨first', found', kind.trans own⟩
  · obtain ⟨old, found', -, same⟩ := scopes_of_declare found
    rw [same]
    exact h.root i old found'
  · obtain ⟨old, found', -, same⟩ := scopes_of_declare found
    exact h.older i old p found' (same ▸ parent)
  · rw [bindingOf_declare] at refers
    obtain ⟨name, entry', own, found, same⟩ := h.references slot b refers
    exact ⟨name, entry', own, grown.bindings b _ found, same⟩
  · rw [declaredBy_declare] at declared
    split at declared
    · subst slot
      cases declared
      obtain ⟨k, own, name⟩ := declares
      obtain ⟨entry', found, same⟩ := h.binding_declare scope d
      exact ⟨k, entry', own, found, same ▸ name⟩
    · obtain ⟨k, entry', own, found, same⟩ := h.declarations slot b declared
      exact ⟨k, entry', own, grown.bindings b _ found, same⟩
  · rcases bindings_of_declare found with old | rfl
    · obtain ⟨place, place', other⟩ := h.hoisted b entry' old var
      obtain ⟨now, there', kind, -⟩ := grown.places _ place place'
      exact ⟨now, there', kind ▸ other⟩
    · obtain ⟨now, there', kind, -⟩ := grown.places _ entry there
      exact ⟨now, there', kind ▸ hoists var⟩

/-! ## Referring -/

theorem binding?_of_lookupWithin {fuel scope : Nat} {name : Name} {b : Nat}
    (found : t.lookupWithin fuel scope name = some b) : ∃ i, t.binding? i name = some b := by
  induction fuel generalizing scope with
  | zero => cases found
  | succ fuel ih =>
    unfold lookupWithin at found
    cases there : t.scopes[scope]? with
    | none => simp [there] at found
    | some entry =>
      rw [there] at found
      cases own : entry.names[name]? with
      | some b' =>
        simp only [own, Option.some.injEq] at found
        exact ⟨scope, by simp [binding?, there, own, found]⟩
      | none =>
        cases parent : entry.parent with
        | none => simp [own, parent] at found
        | some p =>
          simp only [own, parent] at found
          exact ih found

theorem Valid.insert_reference (h : t.Valid s) {slot : Slot} {name : Name} {b : Nat} {entry : Binding}
    (own : s.kind slot = .ok (.ident name)) (found : t.bindings[b]? = some entry)
    (same : entry.name = name) :
    ({ t with references := t.references.insert slot b } : Scopes).Valid s := by
  refine ⟨h.first, h.root, h.older, h.names, fun slot' b' refers => ?_, h.declarations, h.hoisted⟩
  by_cases eq : slot = slot'
  · subst eq
    simp only [bindingOf, Std.TreeMap.getElem?_insert_self, Option.some.injEq] at refers
    subst refers
    exact ⟨name, entry, own, found, same⟩
  · refine h.references slot' b' ?_
    simpa [bindingOf, Std.TreeMap.getElem?_insert, eq] using refers

theorem Valid.refer (h : t.Valid s) {x : Nat} (scope : Nat) {name : Name}
    (own : s.kind (some x) = .ok (.ident name)) : (t.refer x scope name).Valid s := by
  unfold Scopes.refer
  cases found : t.lookup scope name with
  | none => exact h
  | some b =>
    obtain ⟨i, known⟩ := binding?_of_lookupWithin found
    obtain ⟨entry, there, -, same⟩ := (h.names i name b).mp known
    exact h.insert_reference own there same

theorem Valid.copyReference (h : t.Valid s) {copy source : Slot} {name : Name}
    (own : s.kind copy = .ok (.ident name)) (same : s.kind source = .ok (.ident name)) :
    (t.copyReference copy source).Valid s := by
  unfold Scopes.copyReference
  cases found : t.bindingOf source with
  | none => exact h
  | some b =>
    obtain ⟨name', entry, kind, there, names⟩ := h.references source b found
    cases same.symm.trans kind
    exact h.insert_reference own there names

theorem Valid.step (h : t.Valid s) (step : Step s t t') : t'.Valid s := by
  cases step with
  | openScope kind outer => exact h.openScope kind outer
  | declare there hoists declares => exact h.declare there hoists declares
  | refer scope own => exact h.refer scope own
  | copyReference own same => exact h.copyReference own same

/-- What is so at first is so after any steps. -/
theorem Valid.steps (h : t.Valid s) (steps : Relation.ReflTransGen (Step s) t t') : t'.Valid s := by
  induction steps with
  | refl => exact h
  | tail _ last ih => exact ih.step last

theorem Step.extends (step : Step s t t') : t.Extends 0 t' := by
  cases step with
  | openScope kind outer => exact (t.extends_openScope kind _).mono (Nat.zero_le _)
  | declare there hoists declares => exact (extends_declare t _ _).mono (Nat.zero_le _)
  | refer scope own => exact (t.extends_refer _ scope _).mono (Nat.zero_le _)
  | copyReference own same =>
    unfold Scopes.copyReference
    split <;> exact .of_eq rfl rfl

theorem extends_of_steps (steps : Relation.ReflTransGen (Step s) t t') : t.Extends 0 t' := by
  induction steps with
  | refl => exact .of_eq rfl rfl
  | tail _ last ih => exact ih.trans last.extends

/-! ## Climbing -/

/-- A look-up ends: more steps outwards than the scope's index find nothing new. -/
theorem Valid.lookupWithin_eq (h : t.Valid s) (name : Name) {scope fuel fuel' : Nat}
    (enough : scope < fuel) (enough' : scope < fuel') :
    t.lookupWithin fuel scope name = t.lookupWithin fuel' scope name := by
  induction fuel generalizing scope fuel' with
  | zero => omega
  | succ fuel ih =>
    obtain ⟨fuel', rfl⟩ : ∃ n, fuel' = n + 1 := ⟨fuel' - 1, by omega⟩
    cases there : t.scopes[scope]? with
    | none => simp only [lookupWithin, there]
    | some entry =>
      cases own : entry.names[name]? with
      | some b => simp only [lookupWithin, there, own]
      | none =>
        cases parent : entry.parent with
        | none => simp only [lookupWithin, there, own, parent]
        | some p =>
          have older := h.older scope entry p there parent
          have outer : t.lookupWithin fuel p name = t.lookupWithin fuel' p name :=
            ih (by omega) (by omega)
          simp only [lookupWithin, there, own, parent, outer]

section FunctionScope

variable {fuel scope : Nat} {entry : Scope} (there : t.scopes[scope]? = some entry)

include there

theorem functionScopeWithin_other (other : entry.kind ≠ .block) :
    t.functionScopeWithin fuel scope = scope := by
  obtain ⟨kind, parent, names⟩ := entry
  cases fuel with
  | zero => rfl
  | succ fuel => cases kind <;> simp_all [functionScopeWithin]

theorem functionScopeWithin_block {p : Nat} (block : entry.kind = .block)
    (parent : entry.parent = some p) :
    t.functionScopeWithin (fuel + 1) scope = t.functionScopeWithin fuel p := by
  obtain ⟨kind, parent, names⟩ := entry
  simp_all [functionScopeWithin]

end FunctionScope

/-- From a scope, any two climbs that are long enough end at the same place, and that hoists. -/
theorem Valid.functionScopeWithin_eq (h : t.Valid s) {fuel fuel' scope : Nat}
    (inside : scope < t.scopes.size) (enough : scope ≤ fuel) (enough' : scope ≤ fuel') :
    t.functionScopeWithin fuel scope = t.functionScopeWithin fuel' scope ∧
      ∃ entry, t.scopes[t.functionScopeWithin fuel scope]? = some entry ∧ entry.kind ≠ .block := by
  induction fuel generalizing fuel' scope with
  | zero =>
    cases Nat.le_zero.mp enough
    obtain ⟨first, found, own⟩ := h.first
    have other : first.kind ≠ .block := by simp [own]
    rw [functionScopeWithin_other found other, functionScopeWithin_other found other]
    exact ⟨rfl, first, found, other⟩
  | succ fuel ih =>
    have there : t.scopes[scope]? = some t.scopes[scope] := Array.getElem?_eq_getElem inside
    by_cases block : t.scopes[scope].kind = .block
    · cases parent : t.scopes[scope].parent with
      | none =>
        cases (h.root scope _ there).mp parent
        obtain ⟨first, found, own⟩ := h.first
        cases found.symm.trans there
        simp [own] at block
      | some p =>
        have older := h.older scope _ p there parent
        obtain ⟨fuel', rfl⟩ : ∃ n, fuel' = n + 1 := ⟨fuel' - 1, by omega⟩
        rw [functionScopeWithin_block there block parent, functionScopeWithin_block there block parent]
        exact ih (by omega) (by omega) (by omega)
    · rw [functionScopeWithin_other there block, functionScopeWithin_other there block]
      exact ⟨rfl, _, there, block⟩

theorem Valid.functionScope_hoists (h : t.Valid s) {scope : Nat} (inside : scope < t.scopes.size) :
    ∃ entry, t.scopes[t.functionScope scope]? = some entry ∧ entry.kind ≠ .block :=
  (h.functionScopeWithin_eq inside (Nat.le_refl scope) (Nat.le_refl scope)).2

end Steps

end Scopes

/-! ## What is hoisted -/

theorem DeclKeyword.bindingKind_ne_var {keyword : DeclKeyword} (lexical : keyword.isLexical = true) :
    keyword.bindingKind ≠ .var := by
  cases keyword <;> simp_all [isLexical, bindingKind]

namespace Store

variable {s : Store} {Good : Declaration → Prop}

theorem declarators_forall {kind : BindingKind} {range : Range} {before after : Array Declaration}
    (run : s.declarators kind range before = .ok after) (start : ∀ d ∈ before, Good d)
    (good : ∀ d, s.Declares d → d.kind = kind → Good d) : ∀ d ∈ after, Good d := by
  obtain ⟨slots, -, run⟩ := bind_eq_ok_iff.mp run
  refine foldlM_keeps (fun ds => ∀ d ∈ ds, Good d) (fun slot _ before after kept step => ?_) start run
  obtain ⟨k, own, step⟩ := bind_eq_ok_iff.mp step
  split at step
  · cases step
    intro d mem
    rcases Array.mem_push.mp mem with old | rfl
    · exact kept d old
    · exact good _ ⟨_, own, rfl⟩ rfl
  · cases step
    exact kept

theorem params_forall {range : Range} {ds : Array Declaration} (run : s.params range = .ok ds)
    (good : ∀ d, s.Declares d → d.kind = .param → Good d) : ∀ d ∈ ds, Good d := by
  obtain ⟨slots, -, run⟩ := bind_eq_ok_iff.mp run
  refine foldlM_keeps (fun ds => ∀ d ∈ ds, Good d) (fun slot _ before after kept step => ?_)
    (by simp) run
  obtain ⟨k, own, step⟩ := bind_eq_ok_iff.mp step
  split at step
  · cases step
    intro d mem
    rcases Array.mem_push.mp mem with old | rfl
    · exact kept d old
    · exact good _ ⟨_, own, rfl⟩ rfl
  · cases step
    exact kept

theorem lexicals_forall {range : Range} {ds : Array Declaration} (run : s.lexicals range = .ok ds)
    (good : ∀ d, s.Declares d → d.kind ≠ .var → Good d) : ∀ d ∈ ds, Good d := by
  obtain ⟨slots, -, run⟩ := bind_eq_ok_iff.mp run
  refine foldlM_keeps (fun ds => ∀ d ∈ ds, Good d) (fun slot _ before after kept step => ?_)
    (by simp) run
  obtain ⟨k, own, step⟩ := bind_eq_ok_iff.mp step
  have push {d : Declaration} (new : Good d) : ∀ d' ∈ before.push d, Good d' := by
    intro d' mem
    rcases Array.mem_push.mp mem with old | rfl
    · exact kept d' old
    · exact new
  split at step
  · split at step
    · refine declarators_forall step kept fun d declares kind => good d declares ?_
      rw [kind]
      exact DeclKeyword.bindingKind_ne_var ‹_›
    · cases step
      exact kept
  · cases step
    exact push (good _ ⟨_, own, rfl⟩ (by simp))
  · cases step
    exact push (good _ ⟨_, own, rfl⟩ (by simp))
  · cases step
    exact kept

theorem varsOf_forall {fuel : Nat} {slot : Slot} {before after : Array Declaration}
    (run : s.varsOf fuel slot before = .ok after) (start : ∀ d ∈ before, Good d)
    (good : ∀ d, s.Declares d → d.kind = .var → Good d) : ∀ d ∈ after, Good d := by
  induction fuel generalizing slot before after with
  | zero => cases run
  | succ fuel ih =>
    cases slot with
    | none =>
      cases run
      exact start
    | some x =>
      obtain ⟨k, -, run⟩ := bind_eq_ok_iff.mp run
      split at run
      · exact declarators_forall run start good
      · obtain ⟨slots, -, run⟩ := bind_eq_ok_iff.mp run
        exact foldlM_keeps (fun ds => ∀ d ∈ ds, Good d)
          (fun slot _ before after kept step => ih step kept) start run
      · obtain ⟨middle, first, second⟩ := bind_eq_ok_iff.mp run
        exact ih second (ih first start)
      · cases run
        exact start

theorem vars_forall {fuel : Nat} {range : Range} {ds : Array Declaration}
    (run : s.vars fuel range = .ok ds) (good : ∀ d, s.Declares d → d.kind = .var → Good d) :
    ∀ d ∈ ds, Good d := by
  obtain ⟨slots, -, run⟩ := bind_eq_ok_iff.mp run
  exact foldlM_keeps (fun ds => ∀ d ∈ ds, Good d)
    (fun slot _ before after kept step => varsOf_forall step kept good) (by simp) run

end Store

/-! ## Resolving in steps -/

namespace Scopes

variable {s : Store} {t t' : Scopes}

theorem steps_declareAll {scope : Nat} {entry : Scope} {ds : Array Declaration}
    (there : t.scopes[scope]? = some entry)
    (each : ∀ d ∈ ds, s.Declares d ∧ (d.kind = .var → entry.kind ≠ .block)) :
    Relation.ReflTransGen (Step s) t (t.declareAll scope ds) := by
  have all : ∀ d ∈ ds.toList, s.Declares d ∧ (d.kind = .var → entry.kind ≠ .block) := fun d mem =>
    each d (Array.mem_toList_iff.mp mem)
  clear each
  unfold declareAll
  rw [← Array.foldl_toList]
  generalize ds.toList = list at all
  induction list generalizing t entry with
  | nil => exact .refl
  | cons d rest ih =>
    obtain ⟨declares, hoists⟩ := all d List.mem_cons_self
    obtain ⟨entry', there', kind, -⟩ := (extends_declare t scope d).places scope entry there
    refine .head (.declare t there hoists declares) (ih there' fun d mem => ?_)
    rw [kind]
    exact all d (List.mem_cons_of_mem _ mem)

/-- A list of statements is declared in steps; the `var` variables go to a scope that hoists. -/
theorem Valid.steps_declareBody (h : t.Valid s) {fuel scope : Nat} {body : Range}
    (inside : scope < t.scopes.size) (run : s.declareBody fuel scope body t = .ok t') :
    Relation.ReflTransGen (Step s) t t' := by
  obtain ⟨vars, first, run⟩ := bind_eq_ok_iff.mp run
  obtain ⟨lexicals, second, run⟩ := bind_eq_ok_iff.mp run
  cases run
  obtain ⟨place, there, hoists⟩ := h.functionScope_hoists inside
  have outer : Relation.ReflTransGen (Step s) t (t.declareAll (t.functionScope scope) vars) :=
    steps_declareAll there (Store.vars_forall first fun d declares _ => ⟨declares, fun _ => hoists⟩)
  have bound := (extends_of_steps outer).size
  have own : (t.declareAll (t.functionScope scope) vars).scopes[scope]? = some _ :=
    Array.getElem?_eq_getElem (Nat.lt_of_lt_of_le inside bound)
  exact outer.trans (steps_declareAll own (Store.lexicals_forall second
    fun d declares other => ⟨declares, fun var => (other var).elim⟩))

/-- Resolving a node is a sequence of steps. The induction is on the fuel. -/
theorem Valid.steps_resolveNode (h : t.Valid s) {fuel scope : Nat} {slot : Slot}
    (inside : scope < t.scopes.size) (run : s.resolveNode fuel scope slot t = .ok t') :
    Relation.ReflTransGen (Step s) t t' := by
  induction fuel generalizing t t' scope slot with
  | zero => cases run
  | succ fuel ih =>
    -- What comes after some steps is resolved in further steps, in any scope that is there.
    have one {t₁ t₂ : Scopes} {inner : Nat} {slot : Slot} (steps : Relation.ReflTransGen (Step s) t t₁)
        (place : inner < t₁.scopes.size) (run : s.resolveNode fuel inner slot t₁ = .ok t₂) :
        Relation.ReflTransGen (Step s) t t₂ :=
      steps.trans (ih (h.steps steps) place run)
    have all {α : Type} {t₁ t₂ : Scopes} {inner : Nat} {list : List α} (slotOf : α → Slot)
        (steps : Relation.ReflTransGen (Step s) t t₁) (place : inner < t₁.scopes.size)
        (run : list.foldlM (fun t a => s.resolveNode fuel inner (slotOf a) t) t₁ = .ok t₂) :
        Relation.ReflTransGen (Step s) t t₂ := by
      refine (foldlM_keeps (fun t₂ => Relation.ReflTransGen (Step s) t t₂ ∧ inner < t₂.scopes.size)
        (fun a _ t₃ t₄ kept step => ?_) ⟨steps, place⟩ run).1
      have later := one kept.1 kept.2 step
      have rest := ih (h.steps kept.1) kept.2 step
      exact ⟨later, Nat.lt_of_lt_of_le kept.2 (extends_of_steps rest).size⟩
    have opened (kind : ScopeKind) : Relation.ReflTransGen (Step s) t (t.openScope kind (some scope)).2 ∧
        (t.openScope kind (some scope)).2.scopes[t.scopes.size]? = some { kind, parent := some scope } ∧
        t.scopes.size < (t.openScope kind (some scope)).2.scopes.size :=
      ⟨.single (.openScope t kind inside), by simp [Scopes.openScope], by simp [Scopes.openScope]⟩
    have body {t₁ t₂ : Scopes} {inner : Nat} {range : Range}
        (steps : Relation.ReflTransGen (Step s) t t₁) (place : inner < t₁.scopes.size)
        (run : (s.declareBody fuel inner range t₁ >>= fun t => s.list range >>= fun slots =>
          slots.foldlM (fun t slot => s.resolveNode fuel inner slot t) t) = .ok t₂) :
        Relation.ReflTransGen (Step s) t t₂ := by
      obtain ⟨t₃, declared, run⟩ := bind_eq_ok_iff.mp run
      obtain ⟨slots, -, run⟩ := bind_eq_ok_iff.mp run
      have more := (h.steps steps).steps_declareBody place declared
      exact all id (steps.trans more)
        (Nat.lt_of_lt_of_le place (extends_of_steps more).size) run
    cases slot with
    | none => cases run
    | some x =>
      obtain ⟨k, own, run⟩ := bind_eq_ok_iff.mp run
      cases k with
      | program range => exact body .refl inside run
      | block range =>
        obtain ⟨lexicals, found, run⟩ := bind_eq_ok_iff.mp run
        obtain ⟨slots, -, run⟩ := bind_eq_ok_iff.mp run
        obtain ⟨first, there, new⟩ := opened .block
        have more := steps_declareAll there (Store.lexicals_forall found
          fun d declares other => ⟨declares, fun var => (other var).elim⟩)
        exact all id (first.trans more) (Nat.lt_of_lt_of_le new (extends_of_steps more).size) run
      | function _ params range | arrow params range =>
        obtain ⟨ds, found, run⟩ := bind_eq_ok_iff.mp run
        obtain ⟨first, there, new⟩ := opened .function
        have more := steps_declareAll there (Store.params_forall found
          fun d declares _ => ⟨declares, fun _ => by simp⟩)
        have place := Nat.lt_of_lt_of_le new (extends_of_steps more).size
        cases range with
        | none =>
          cases run
          exact first.trans more
        | some y =>
          obtain ⟨k, -, run⟩ := bind_eq_ok_iff.mp run
          cases k with
          | block range => exact body (first.trans more) place run
          | _ => exact one (first.trans more) place run
      | ident name =>
        cases run
        exact .single (.refer t scope own)
      | _ =>
        obtain ⟨children, -, run⟩ := bind_eq_ok_iff.mp run
        exact all some .refl inside run

/-- Whatever comes out of resolving agrees with the store. -/
theorem valid_resolve {root : Slot} (run : s.resolve root = .ok t) : t.Valid s := by
  have start := valid_start s
  unfold Store.resolve at run
  cases inside : s.contains root with
  | true =>
    simp only [inside, if_true] at run
    exact start.steps (start.steps_resolveNode Nat.zero_lt_one run)
  | false =>
    simp only [inside] at run
    cases run
    exact start

end Scopes

end BigLower
