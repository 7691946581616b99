import BigLower.Names.Lemmas
import Mathlib.Data.Set.Function
import Mathlib.Data.List.Dedup

/-! # Clients that share a table of names

Interning is a reading step and, if that misses, a writing step that looks again. Any
number of clients may take such steps in any order on one table. Whatever the order,
texts and names correspond, a name that was given out keeps its text, and the table
holds the empty text and what was asked for in calls that are complete.
-/

namespace BigLower

namespace Names

/-! ## Texts and names of a table -/

section Consistent

variable {t : Names}

theorem text_of_size_le {name : Name} (unknown : t.size ≤ name) : t.text name = "" := by
  have absent : t.texts[name]? = none := Array.getElem?_eq_none unknown
  simp [text, Array.getD_eq_getD_getElem?, absent]

theorem find?_insert_of_some {text' : String} {name : Name} (found : t.find? text' = some name)
    (text : String) : (t.insert text).2.find? text' = some name := by
  rw [find?_insert]
  by_cases same : text = text'
  · subst same
    simp [insert, found]
  · rw [if_neg same, found]

variable (h : t.Consistent)

include h

theorem Consistent.find?_eq_some_iff {text : String} {name : Name} :
    t.find? text = some name ↔ name < t.size ∧ t.text name = text := by
  apply Iff.intro
  · intro found
    have known := (Array.getElem?_eq_some_iff.mp ((h text name).mp found)).choose
    exact ⟨known, h.text_of_find? found⟩
  · rintro ⟨known, rfl⟩
    exact h.find?_text known

theorem Consistent.mem_texts (text : String) : text ∈ t.texts.toList ↔ t.find? text ≠ none := by
  rw [List.mem_iff_getElem?, Option.ne_none_iff_exists']
  simp [h text]

theorem Consistent.nodup_texts : t.texts.toList.Nodup := by
  rw [List.nodup_iff_getElem?_ne_getElem?]
  intro i j before bound same
  rw [Array.length_toList] at bound
  have found : t.texts[i]? = some t.texts[i] := Array.getElem?_eq_getElem (Nat.lt_trans before bound)
  rw [Array.getElem?_toList, Array.getElem?_toList] at same
  have first := (h _ i).mpr found
  have second := (h _ j).mpr (same.symm.trans found)
  cases first.symm.trans second
  exact Nat.lt_irrefl i before

theorem Consistent.bijOn_text :
    Set.BijOn t.text {name | name < t.size} {text | t.find? text ≠ none} := by
  refine ⟨fun name known => ?_, fun name known name' known' same => ?_, fun text known => ?_⟩
  · simp [h.find?_text known]
  · have found := h.find?_text known
    rw [same, h.find?_text known'] at found
    exact (Option.some.inj found).symm
  · obtain ⟨name, found⟩ := Option.ne_none_iff_exists'.mp known
    exact ⟨name, h.find?_eq_some_iff.mp found⟩

end Consistent

/-! ## Steps of clients -/

structure Call where
  text : String
  name : Name
deriving DecidableEq

/-- A table and its clients. A client that missed a text in its reading step has yet to write it. -/
structure Clients (ι : Type) where
  table : Names := fresh
  missed : ι → Option String := fun _ => none
  calls : List Call := []

namespace Clients

section Steps

variable {ι : Type} [DecidableEq ι] (s : Clients ι) (client : ι) (text : String)

def read : Clients ι :=
  match s.table.find? text with
  | some name => { s with calls := ⟨text, name⟩ :: s.calls }
  | none => { s with missed := Function.update s.missed client (some text) }

def write : Clients ι where
  table := (s.table.insert text).2
  missed := Function.update s.missed client none
  calls := ⟨text, (s.table.insert text).1⟩ :: s.calls

/--
The next step of a client: it writes what it missed, and if it missed nothing then it
begins a call for the given text.
-/
def advance : Clients ι :=
  match s.missed client with
  | some missed => s.write client missed
  | none => s.read client text

def run (schedule : List (ι × String)) : Clients ι :=
  schedule.foldl (fun s turn => s.advance turn.1 turn.2) s

end Steps

/-! ## What a step keeps -/

section Sound

variable {ι : Type} {s : Clients ι}

/-- What is so at any time: texts and names correspond, and only calls have put texts there. -/
structure Sound (s : Clients ι) : Prop where
  consistent : s.table.Consistent
  empty : s.table.find? "" = some 0
  answered : ∀ call ∈ s.calls, s.table.find? call.text = some call.name
  asked : ∀ text, s.table.find? text ≠ none → text = "" ∨ ∃ call ∈ s.calls, call.text = text

theorem sound_start : ({} : Clients ι).Sound where
  consistent := consistent_fresh
  empty := (consistent_fresh "" 0).mpr rfl
  answered _ mem := by cases mem
  asked text known := by
    obtain ⟨name, found⟩ := Option.ne_none_iff_exists'.mp known
    have read := (consistent_fresh text name).mp found
    cases name with
    | zero => exact .inl (Option.some.inj read).symm
    | succ name => cases read

variable [DecidableEq ι]

theorem find?_advance {text' : String} {name : Name} (found : s.table.find? text' = some name)
    (client : ι) (text : String) : (s.advance client text).table.find? text' = some name := by
  unfold advance read
  split
  · exact find?_insert_of_some found _
  · split
    · exact found
    · exact found

theorem Sound.read (h : s.Sound) (client : ι) (text : String) : (s.read client text).Sound := by
  unfold Clients.read
  cases found : s.table.find? text with
  | none => exact ⟨h.consistent, h.empty, h.answered, h.asked⟩
  | some name =>
    refine ⟨h.consistent, h.empty, fun call mem => ?_, fun text' known => ?_⟩
    · rcases List.mem_cons.mp mem with rfl | mem
      · exact found
      · exact h.answered call mem
    · rcases h.asked text' known with empty | ⟨call, mem, same⟩
      · exact .inl empty
      · exact .inr ⟨call, List.mem_cons_of_mem _ mem, same⟩

/-- A text may have come since it was missed. The step looks again, so it is not added twice. -/
theorem Sound.write (h : s.Sound) (client : ι) (text : String) : (s.write client text).Sound where
  consistent := h.consistent.insert text
  empty := find?_insert_of_some h.empty text
  answered call mem := by
    rcases List.mem_cons.mp mem with rfl | mem
    · exact (find?_insert s.table text text).trans (if_pos rfl)
    · exact find?_insert_of_some (h.answered call mem) text
  asked text' known := by
    by_cases same : text = text'
    · exact .inr ⟨_, List.mem_cons_self, same⟩
    · have before : s.table.find? text' ≠ none := by
        simpa [Clients.write, find?_insert, same] using known
      rcases h.asked text' before with empty | ⟨call, mem, same⟩
      · exact .inl empty
      · exact .inr ⟨call, List.mem_cons_of_mem _ mem, same⟩

theorem Sound.advance (h : s.Sound) (client : ι) (text : String) : (s.advance client text).Sound := by
  unfold Clients.advance
  split
  · exact h.write client _
  · exact h.read client text

/-! ## What a schedule keeps -/

theorem find?_run {text : String} {name : Name} (found : s.table.find? text = some name)
    (schedule : List (ι × String)) : (s.run schedule).table.find? text = some name := by
  induction schedule generalizing s with
  | nil => exact found
  | cons turn rest ih => exact ih (find?_advance found turn.1 turn.2)

theorem Sound.run (h : s.Sound) (schedule : List (ι × String)) : (s.run schedule).Sound := by
  induction schedule generalizing s with
  | nil => exact h
  | cons turn rest ih => exact ih (h.advance turn.1 turn.2)

end Sound

/-! ## What clients can rely on -/

section Texts

variable {ι : Type} {s : Clients ι}

def asked (s : Clients ι) : List String :=
  ((s.calls.map Call.text).filter (· ≠ "")).dedup

theorem Sound.mem_asked (h : s.Sound) (text : String) :
    text ∈ "" :: s.asked ↔ s.table.find? text ≠ none := by
  have mem : text ∈ s.asked ↔ (∃ call ∈ s.calls, call.text = text) ∧ text ≠ "" := by
    simp [Clients.asked]
  rw [List.mem_cons, mem]
  apply Iff.intro
  · intro given
    rcases given with rfl | ⟨⟨call, inside, rfl⟩, -⟩
    · simp [h.empty]
    · simp [h.answered call inside]
  · intro known
    by_cases empty : text = ""
    · exact .inl empty
    · exact .inr ⟨(h.asked text known).resolve_left empty, empty⟩

/-- The empty text is there from the start; each other text is there once it was asked for. -/
theorem Sound.size_table (h : s.Sound) : s.table.size = 1 + s.asked.length := by
  have distinct : ("" :: s.asked).Nodup := by
    refine List.nodup_cons.mpr ⟨?_, List.nodup_dedup _⟩
    simp [Clients.asked]
  have same : s.table.texts.toList.Perm ("" :: s.asked) := by
    rw [List.perm_ext_iff_of_nodup h.consistent.nodup_texts distinct]
    intro text
    rw [h.consistent.mem_texts, h.mem_asked]
  have lengths := same.length_eq
  rw [Array.length_toList, List.length_cons, Nat.add_comm] at lengths
  exact lengths

end Texts

variable {ι : Type} [DecidableEq ι] {s : Clients ι}

/-- What clients of a table can rely on. -/
structure Reliable (s : Clients ι) : Prop where
  /-- Names below the size and known texts correspond, by reading and by looking up. -/
  bijection : Set.BijOn s.table.text {name | name < s.table.size} {text | s.table.find? text ≠ none}
  inverse : ∀ text name, s.table.find? text = some name ↔
    name < s.table.size ∧ s.table.text name = text
  empty : s.table.find? "" = some 0
  unknown : ∀ name, s.table.size ≤ name → s.table.text name = ""
  /-- A name that a call gave has its text now and after any further steps. -/
  lasting : ∀ call ∈ s.calls, ∀ later, (s.run later).table.text call.name = call.text
  same : ∀ call ∈ s.calls, ∀ call' ∈ s.calls, call.name = call'.name ↔ call.text = call'.text
  size : s.table.size = 1 + s.asked.length
  /-- A call whose steps no other client divides is an `intern`. -/
  alone : ∀ client text, s.missed client = none →
    ∃ later, (later = [(client, text)] ∨ later = [(client, text), (client, text)]) ∧
      (s.run later).table = (s.table.intern text).2 ∧
      (s.run later).calls = ⟨text, (s.table.intern text).1⟩ :: s.calls ∧
      (s.run later).missed = s.missed

theorem run_alone {client : ι} (idle : s.missed client = none) (text : String) :
    ∃ later, (later = [(client, text)] ∨ later = [(client, text), (client, text)]) ∧
      (s.run later).table = (s.table.intern text).2 ∧
      (s.run later).calls = ⟨text, (s.table.intern text).1⟩ :: s.calls ∧
      (s.run later).missed = s.missed := by
  cases found : s.table.find? text with
  | some name => exact ⟨_, .inl rfl, by simp [run, advance, idle, read, found, intern]⟩
  | none =>
    have restored : Function.update s.missed client none = s.missed := by
      rw [← idle, Function.update_eq_self]
    refine ⟨_, .inr rfl, ?_⟩
    simp [run, advance, idle, read, write, found, intern, restored]

theorem Sound.reliable (h : s.Sound) : s.Reliable where
  bijection := h.consistent.bijOn_text
  inverse _ _ := h.consistent.find?_eq_some_iff
  empty := h.empty
  unknown _ := text_of_size_le
  lasting call mem later :=
    (h.run later).consistent.text_of_find? (find?_run (h.answered call mem) later)
  same call mem call' mem' := by
    have first := h.answered call mem
    have second := h.answered call' mem'
    apply Iff.intro
    · intro names
      rw [← h.consistent.text_of_find? first, ← h.consistent.text_of_find? second, names]
    · intro texts
      rw [texts, second] at first
      exact (Option.some.inj first).symm
  size := h.size_table
  alone _ text idle := run_alone idle text

/--
Whatever the order in which clients of a new table take their reading and writing
steps, texts and names correspond one to one at any time, the names that were given
out keep their texts, and no text is stored twice.
-/
theorem run_reliable (schedule : List (ι × String)) : (({} : Clients ι).run schedule).Reliable :=
  (sound_start.run schedule).reliable

/-- Two clients miss the same text before either of them writes it, and get the same name. -/
example : (({} : Clients Nat).run [(0, "a"), (1, "a"), (2, "b"), (1, ""), (2, ""), (0, "")]).calls =
    [⟨"a", 1⟩, ⟨"b", 2⟩, ⟨"a", 1⟩] := by
  decide +kernel

end Clients

end Names

end BigLower
