import BigLower.Proofs.Units

/-! # Remembered answers make no difference

The caching judge keeps positive answers as taints and negative ones until the
next epoch, while the tree that they are about is changed. Its answers are those
of the plain judge all the same, so a unit is lowered alike with either.
-/

namespace BigLower

/--
A well-formed unit is lowered with the caching judge exactly as with the plain
one: to the same store, names, scopes and counts, with the same nodes replaced
and settled and the same bindings tainted. If the store gets full then it does so with
both, and the fault is the same.
-/
theorem lower_eq_lowerBy_plain {τ : Type} [Naming τ] {s : Store} {T : Tree Nat Name}
    (h : WellFormed s T) (config : Config) (names : τ) :
    (∃ fault : Fault, fault.isOverflow = true ∧
      lower config s (some T.tag) names = .error fault ∧
      lowerBy .plain config s (some T.tag) names = .error fault) ∨
    ∃ (store : Store) (names' : τ) (importNode : Nat) (scopes : Scopes) (tally : Tally)
      (cached plain : Facts),
      lower config s (some T.tag) names =
        .ok ⟨store, names', .ok ⟨importNode, cached, scopes, tally⟩⟩ ∧
      lowerBy .plain config s (some T.tag) names =
        .ok ⟨store, names', .ok ⟨importNode, plain, scopes, tally⟩⟩ ∧
      (∀ slot, cached.isReplaced slot = plain.isReplaced slot) ∧
      (∀ slot, cached.isSettled slot = plain.isSettled slot) ∧
      ∀ binding, cached.isBindingTainted binding = plain.isBindingTainted binding := by
  obtain ⟨run⟩ := h.run config names
  have faithful := run.setup.faithful_cached
  have start := run.setup.remembers_empty
  rcases run.ends with ⟨arrives, -⟩ | ⟨⟨fault, overflow, stuck⟩, -⟩
  · obtain ⟨cached, first, remembers⟩ := arrives .cached _ faithful start
    obtain ⟨plain, second, rfl⟩ := arrives .plain Eq run.setup.faithful_plain rfl
    exact .inr ⟨_, _, _, _, _, cached, _, first, second, faithful.replaced remembers,
      faithful.settled remembers, faithful.bindings remembers⟩
  · exact .inl ⟨fault, overflow, stuck .cached _ faithful start,
      stuck .plain Eq run.setup.faithful_plain rfl⟩

/-- The sample has a declaration, an assignment and calls whose answers are asked for again. -/
theorem lower_eq_lowerBy_plain_sample :
    WellFormed Sample.store Sample.tree ∧
    ¬ Overflows (lower {} Sample.store (some Sample.tree.tag) Sample.names) ∧
    ∃ (store : Store) (names' : Names) (importNode : Nat) (scopes : Scopes) (tally : Tally)
      (cached plain : Facts),
      lower {} Sample.store (some Sample.tree.tag) Sample.names =
        .ok ⟨store, names', .ok ⟨importNode, cached, scopes, tally⟩⟩ ∧
      lowerBy .plain {} Sample.store (some Sample.tree.tag) Sample.names =
        .ok ⟨store, names', .ok ⟨importNode, plain, scopes, tally⟩⟩ ∧
      (∀ slot, cached.isReplaced slot = plain.isReplaced slot) ∧
      (∀ slot, cached.isSettled slot = plain.isSettled slot) ∧
      ∀ binding, cached.isBindingTainted binding = plain.isBindingTainted binding := by
  refine ⟨Sample.wellFormed, Sample.room, ?_⟩
  refine (lower_eq_lowerBy_plain Sample.wellFormed {} Sample.names).resolve_left ?_
  rintro ⟨fault, overflow, stuck, -⟩
  exact Sample.room ⟨fault, stuck, overflow⟩

end BigLower
