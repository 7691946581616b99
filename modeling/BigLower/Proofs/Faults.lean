import BigLower.Store.Lemmas

/-! # Steps that may fault

A step of a run either goes on or ends the run with a fault. One kind of fault can come
up in any unit, however well it is formed: that the store has no indices left.
-/

namespace BigLower

section Bind

variable {S α β : Type}

theorem bind_of_eq {x : Except Fault α} {a : α} (first : x = .ok a) {k : α → Except Fault β} :
    (x >>= k) = k a := by
  rw [first]
  rfl

theorem bind_of_error {x : Except Fault α} {e : Fault} (first : x = .error e)
    {k : α → Except Fault β} : (x >>= k) = .error e := by
  rw [first]
  rfl

theorem bind_of_ok {m : StateT S (Except Fault) α} {k : α → StateT S (Except Fault) β}
    {s s₁ : S} {a : α} (first : m s = .ok (a, s₁)) : (m >>= k) s = k a s₁ :=
  bind_of_eq first

theorem bind_eq_ok_iff {x : Except Fault α} {k : α → Except Fault β} {b : β} :
    (x >>= k) = .ok b ↔ ∃ a, x = .ok a ∧ k a = .ok b := by
  cases x with
  | error e => simp [bind, Except.bind]
  | ok a => simp [bind, Except.bind]

end Bind

/-! ## Runs -/

/--
Started in a state, a run comes to a result and a state as told by `Q`, or it ends with
a fault as told by `E`.
-/
def Ensures {S α : Type} (E : Fault → Prop) (m : StateT S (Except Fault) α) (s : S)
    (Q : α → S → Prop) : Prop :=
  (∃ fault, m s = .error fault ∧ E fault) ∨ ∃ a s', m s = .ok (a, s') ∧ Q a s'

namespace Ensures

variable {S α β : Type} {E : Fault → Prop} {s s₁ : S} {m : StateT S (Except Fault) α}
  {P Q : α → S → Prop} {R : β → S → Prop}

theorem of_ok {a : α} (run : m s = .ok (a, s₁)) (here : Q a s₁) : Ensures E m s Q :=
  .inr ⟨a, s₁, run, here⟩

theorem pure {a : α} (here : Q a s) : Ensures E (Pure.pure a) s Q :=
  of_ok rfl here

theorem bind {k : α → StateT S (Except Fault) β} (first : Ensures E m s P)
    (second : ∀ a s', P a s' → Ensures E (k a) s' R) : Ensures E (m >>= k) s R := by
  rcases first with ⟨fault, ends, known⟩ | ⟨a, s₁, run, here⟩
  · exact .inl ⟨fault, bind_of_error ends, known⟩
  · rw [Ensures, bind_of_ok run]
    exact second a s₁ here

theorem step {a : α} (run : m s = .ok (a, s₁)) {k : α → StateT S (Except Fault) β}
    (next : Ensures E (k a) s₁ R) : Ensures E (m >>= k) s R := by
  rwa [Ensures, bind_of_ok run]

theorem get {k : S → StateT S (Except Fault) β} (next : Ensures E (k s) s R) :
    Ensures E (MonadState.get >>= k) s R :=
  next

theorem lift {x : Except Fault α} {a : α} (read : x = .ok a) {k : α → StateT S (Except Fault) β}
    (next : Ensures E (k a) s R) :
    Ensures E ((liftM x : StateT S (Except Fault) α) >>= k) s R := by
  subst read
  exact next

theorem mono (h : Ensures E m s P) (weaker : ∀ a s', P a s' → Q a s') : Ensures E m s Q := by
  rcases h with ends | ⟨a, s', run, here⟩
  · exact .inl ends
  · exact of_ok run (weaker a s' here)

theorem forM {list : List β} {walk : β → StateT S (Except Fault) Unit} {Good : S → Prop}
    (each : ∀ b ∈ list, ∀ s, Good s → Ensures E (walk b) s fun _ s' => Good s') (start : Good s) :
    Ensures E (list.forM walk) s fun _ s' => Good s' := by
  induction list generalizing s with
  | nil => exact pure start
  | cons b rest ih =>
    refine bind (each b List.mem_cons_self s start) fun _ s' here => ?_
    exact ih (fun c mem => each c (List.mem_cons_of_mem b mem)) here

theorem forM_append {front rest : List β} {walk : β → StateT S (Except Fault) Unit}
    {Good : S → Prop} {Q : Unit → S → Prop}
    (first : Ensures E (front.forM walk) s fun _ s' => Good s')
    (second : ∀ s', Good s' → Ensures E (rest.forM walk) s' Q) :
    Ensures E ((front ++ rest).forM walk) s Q := by
  have split : (front ++ rest).forM walk = (front.forM walk >>= fun _ => rest.forM walk) :=
    List.forM_append
  rw [split]
  exact bind first fun _ => second

end Ensures

/-! ## Full stores -/

def Fault.isOverflow : Fault → Bool
  | tooManyNodes _ | tooManyEntries _ => true
  | _ => false

/-- The run ends because the store has no index left for a node or for a list. -/
def Overflows {α : Type} (x : Except Fault α) : Prop :=
  ∃ fault, x = .error fault ∧ fault.isOverflow = true

instance {α : Type} : DecidablePred (@Overflows α)
  | .ok _ => .isFalse nofun
  | .error fault => decidable_of_iff (fault.isOverflow = true) (by simp [Overflows])

namespace Overflows

variable {α β : Type} {x : Except Fault α}

theorem bind (h : Overflows x) (k : α → Except Fault β) : Overflows (x >>= k) := by
  obtain ⟨fault, ends, full⟩ := h
  exact ⟨fault, bind_of_error ends, full⟩

theorem ne_ok (h : Overflows x) (a : α) : x ≠ .ok a := by
  intro done
  obtain ⟨fault, ends, -⟩ := h
  cases ends.symm.trans done

end Overflows

end BigLower
