import BigLower.Names.Table

/-! # Tables of names: texts and names correspond

A table is consistent when its two halves agree: a text has a name exactly if it
is the text of that name. A fresh table is consistent and interning keeps it so,
gives the text back, and changes no name that is already there.
-/

namespace BigLower

namespace Names

def Consistent (t : Names) : Prop :=
  ∀ (text : String) (name : Nat), t.find? text = some name ↔ t.texts[name]? = some text

theorem consistent_fresh : fresh.Consistent := by
  intro text name
  by_cases h : text = ""
  · subst h
    cases name with
    | zero => simp [fresh, find?]
    | succ name => simp [fresh, find?]
  · have other : compare "" text ≠ .eq := by simpa using Ne.symm h
    cases name with
    | zero => simp [fresh, find?, other, Ne.symm h]
    | succ name => simp [fresh, find?, other]

theorem find?_insert (t : Names) (text text' : String) :
    (t.insert text).2.find? text' =
      if text = text' then some (t.insert text).1 else t.find? text' := by
  unfold insert
  cases found : t.find? text with
  | some name =>
    by_cases h : text = text'
    · subst h
      simp [found]
    · simp [h]
  | none => simp [find?, Std.TreeMap.getElem?_insert]

theorem Consistent.insert {t : Names} (h : t.Consistent) (text : String) :
    (t.insert text).2.Consistent := by
  cases found : t.find? text with
  | some name => simpa [Names.insert, found] using h
  | none =>
    have absent : ∀ name : Nat, t.texts[name]? ≠ some text := by
      intro name read
      rw [(h text name).mpr read] at found
      cases found
    intro text' name'
    rw [find?_insert]
    by_cases same : text = text'
    · subst same
      simp only [Names.insert, found, Array.getElem?_push, if_true]
      by_cases last : name' = t.texts.size
      · simp [last]
      · simp [last, Ne.symm last, absent name']
    · simp only [same, if_false, Names.insert, found, Array.getElem?_push]
      rw [h text' name']
      by_cases last : name' = t.texts.size
      · subst last
        simp [same]
      · simp [last]

theorem Consistent.intern {t : Names} (h : t.Consistent) (text : String) :
    (t.intern text).2.Consistent := by
  rw [intern_eq_insert]
  exact h.insert text

theorem Consistent.interned {t : Names} (h : t.Consistent) (texts : List String) :
    (texts.foldl (fun t text => (t.intern text).2) t).Consistent := by
  induction texts generalizing t with
  | nil => exact h
  | cons text rest ih => exact ih (h.intern text)

theorem Consistent.text_of_find? {t : Names} (h : t.Consistent) {text : String} {name : Name}
    (found : t.find? text = some name) : t.text name = text := by
  simp [Names.text, Array.getD_eq_getD_getElem?, (h text name).mp found]

theorem Consistent.find?_text {t : Names} (h : t.Consistent) {name : Name} (known : name < t.size) :
    t.find? (t.text name) = some name := by
  have read : t.texts[name]? = some t.texts[name] := Array.getElem?_eq_getElem known
  have same : t.text name = t.texts[name] := by
    simp [Names.text, Array.getD_eq_getD_getElem?, read]
  exact (h _ name).mpr (same ▸ read)

theorem text_insert {t : Names} (h : t.Consistent) (text : String) :
    (t.insert text).2.text (t.insert text).1 = text := by
  refine (h.insert text).text_of_find? ?_
  rw [find?_insert, if_pos rfl]

theorem text_insert_of_lt {t : Names} {name : Nat} (bound : name < t.size) (text : String) :
    (t.insert text).2.text name = t.text name := by
  unfold insert
  cases t.find? text with
  | some _ => rfl
  | none =>
    have old : name ≠ t.texts.size := Nat.ne_of_lt bound
    simp [Names.text, Array.getD_eq_getD_getElem?, Array.getElem?_push, old]

theorem size_le_size_insert (t : Names) (text : String) : t.size ≤ (t.insert text).2.size := by
  unfold insert
  cases t.find? text with
  | some _ => exact Nat.le_refl _
  | none => simp [size]

end Names

end BigLower
