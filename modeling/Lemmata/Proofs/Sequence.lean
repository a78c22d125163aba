/-!
# Sequences of changes that may be refused

Declarations, statements and proof steps are all made in sequences that carry a state along and end
at the first refusal. What a sequence does is what its first part does, followed by the rest from
where the first part left the state.

A sequence that is accepted exactly under a condition is put together from parts that are accepted
under weaker and weaker ones, the first part under the weakest (`Accepts.bind`).
-/

namespace Lemmata.Sequence

variable {ε σ α β : Type} {m : ExceptT ε (StateM σ) α} {s s' : σ}

/-- After a first part that goes through, the rest runs from the state it left. -/
theorem bind_of_ok {a : α} (hm : m s = (.ok a, s')) (f : α → ExceptT ε (StateM σ) β) :
    (m >>= f) s = f a s' := by
  simp only [bind, ExceptT.bind, ExceptT.mk, StateT.bind, hm, ExceptT.bindCont]

/-- A first part that is refused ends the sequence, and the state stays as it left it. -/
theorem bind_of_error {e : ε} (hm : m s = (.error e, s')) (f : α → ExceptT ε (StateM σ) β) :
    (m >>= f) s = (.error e, s') := by
  simp only [bind, ExceptT.bind, ExceptT.mk, StateT.bind, hm, ExceptT.bindCont]
  rfl

/-- A sequence goes through exactly if its parts do, one after the other. -/
theorem bind_eq_ok_iff {f : α → ExceptT ε (StateM σ) β} {b : β} :
    (m >>= f) s = (.ok b, s') ↔ ∃ a u, m s = (.ok a, u) ∧ f a u = (.ok b, s') := by
  constructor
  · intro h
    cases hm : m s with
    | mk r u =>
      cases r with
      | error e =>
        rw [bind_of_error hm] at h
        cases h
      | ok a =>
        rw [bind_of_ok hm] at h
        exact ⟨a, u, rfl, h⟩
  · intro h
    obtain ⟨a, u, hm, hf⟩ := h
    rw [bind_of_ok hm, hf]

/-- From `s` the sequence goes through exactly if `P` holds, and then with what `Q` says. -/
def Accepts (m : ExceptT ε (StateM σ) α) (s : σ) (P : Prop) (Q : α → σ → Prop) : Prop :=
  (P ∧ ∃ a s', m s = (.ok a, s') ∧ Q a s') ∨ (¬ P ∧ ∃ e s', m s = (.error e, s'))

namespace Accepts

variable {P P' : Prop} {Q : α → σ → Prop}

/-- To do nothing is accepted under any condition that holds. -/
theorem pure {a : α} (hP : P) (hQ : Q a s) :
    Accepts (Pure.pure a : ExceptT ε (StateM σ) α) s P Q :=
  .inl ⟨hP, a, s, rfl, hQ⟩

/-- Only what the condition says matters, not how it is put. -/
theorem congr (h : Accepts m s P Q) (hP : P ↔ P') : Accepts m s P' Q := by
  rw [Accepts, ← hP]
  exact h

/-- If the first part is accepted under a condition that the whole needs anyway, and the rest under
the condition of the whole, then so is the sequence. -/
theorem bind {f : α → ExceptT ε (StateM σ) β} {Q' : β → σ → Prop} (hm : Accepts m s P Q)
    (hP : P' → P) (hf : ∀ a s', Q a s' → Accepts (f a) s' P' Q') : Accepts (m >>= f) s P' Q' := by
  rcases hm with ⟨-, a, u, hm, hQ⟩ | ⟨hnot, e, u, hm⟩
  · rw [Accepts, bind_of_ok hm]
    exact hf a u hQ
  · rw [Accepts, bind_of_error hm]
    exact .inr ⟨fun hP' => hnot (hP hP'), e, u, rfl⟩

end Accepts

end Lemmata.Sequence
