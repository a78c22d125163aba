import Lemmata.Connective.Detachment
import Lemmata.Proofs.Connective.Conjunction

/-!
# Detaching implications

To detach the consequent of an implication takes two steps: the instance of the implication, and its
consequent by modus ponens. Both are correct, because the first is the assertion under the
substitution that matched its antecedent, and modus ponens leads from bare variables to a bare
variable (`Detaches.correct`).

`detach_derives` says that these are the only steps that are made, and `detach_returns` when they
are.
-/

namespace Lemmata

/-- Modus ponens leads from `φ` and `φ → ψ` to `ψ`. -/
theorem Assertion.modusPonens?_spec {a : Assertion} {s : Symbol} (h : a.modusPonens? = some s) :
    ∃ φ ψ : Serial, φ ≠ ψ ∧
      a.hypotheses = [.leaf (.var φ), .binary s (.leaf (.var φ)) (.leaf (.var ψ))] ∧
      a.conclusion = .leaf (.var ψ) ∧ s.varId? = none := by
  rw [modusPonens?] at h
  split at h
  next minor f l r hhyps =>
    obtain ⟨φ, hφ, h⟩ := Option.bind_eq_some_iff.mp h
    obtain ⟨ψ, hψ, h⟩ := Option.bind_eq_some_iff.mp h
    split at h
    next hvars =>
      cases h
      obtain ⟨hne, hl, hr⟩ := hvars
      rw [Term.bareVar?_eq_some_iff] at hφ hψ hl hr
      exact ⟨φ, ψ, hne, by rw [hhyps, hφ, hl, hr]; rfl, hψ, rfl⟩
    · cases h
  · cases h

namespace Detachments

/-- Every implication is filed with a modus ponens of its own. -/
structure Lawful (d : Detachments) : Prop where
  valid : d.rules.Valid
  modusPonens : ∀ s mp, d.rules.get? s = some mp → mp.modusPonens? = some s

/-- The implications of a theory are filed with a rule of the theory that detaches them. -/
theorem lawful_ofTheory (T : Theory) : (ofTheory T).Lawful := by
  refine ⟨(Registry.ofList_spec _).1, fun s mp hmp => ?_⟩
  obtain ⟨a, -, ha⟩ := List.mem_filterMap.mp (Registry.mem_of_get?_ofList hmp)
  obtain ⟨s', hs, heq⟩ := Option.map_eq_some_iff.mp ha
  cases heq
  exact hs

/-- An assertion is taken for an implication if it has no hypotheses and its conclusion is made with
a filed symbol. -/
theorem implication?_eq_some {d : Detachments} {a : Assertion} {s : Symbol} {p : Term}
    {mp : Assertion} (h : d.implication? a = some (s, p, mp)) :
    a.hypotheses = [] ∧ d.rules.get? s = some mp ∧ ∃ q, a.conclusion = .binary s p q := by
  rw [implication?] at h
  split at h
  next s' p' q hhyps hconcl =>
    obtain ⟨mp', hmp, heq⟩ := Option.map_eq_some_iff.mp h
    cases heq
    exact ⟨hhyps, hmp, q, hconcl⟩
  · cases h

/-- The converse: such an assertion is taken for an implication. -/
theorem Lawful.exists_implication? {d : Detachments} (hd : d.Lawful) {a : Assertion} {s : Symbol}
    {p q : Term} (hhyps : a.hypotheses = []) (hconcl : a.conclusion = .binary s p q)
    (hs : d.isImplication s) : ∃ mp, d.implication? a = some (s, p, mp) := by
  obtain ⟨mp, hmp⟩ := hd.valid.exists_of_contains hs
  refine ⟨mp, ?_⟩
  rw [implication?, hhyps, hconcl]
  exact Option.map_eq_some_iff.mpr ⟨mp, hmp, rfl⟩

/-! ## The steps -/

/-- The implication that the assertion states, with the substitution that turns its antecedent into
the formula of a step. -/
structure Fires (d : Detachments) (a : Assertion) (w : Worksheet) (i : StepId) (s : Symbol)
    (p : Term) (mp : Assertion) (σ : Substitution) : Prop where
  implication : d.implication? a = some (s, p, mp)
  ordered : σ.Ordered
  covers : σ.Covers p
  antecedent : w.formula? i = some (σ.apply p)

/-- What is matched is the left side of the conclusion. -/
theorem Fires.eq_antecedent {d : Detachments} {a : Assertion} {w : Worksheet} {i : StepId}
    {s : Symbol} {p : Term} {mp : Assertion} {σ : Substitution} (h : d.Fires a w i s p mp σ)
    {f : Symbol} {l r : Term} (hconcl : a.conclusion = .binary f l r) : p = l := by
  obtain ⟨-, -, q, hq⟩ := implication?_eq_some h.implication
  rw [hconcl] at hq
  cases hq
  rfl

/-- The steps that detaching a consequent makes. -/
inductive Detaches (d : Detachments) (a : Assertion) (consequent : Term) (i : StepId)
    (w : Worksheet) : Term → Justification → Prop
  | major {s : Symbol} {p : Term} {mp : Assertion} {σ : Substitution} :
    d.Fires a w i s p mp σ →
      Detaches d a consequent i w (.binary s (σ.apply p) (σ.apply consequent)) (.assertion a [])
  | result {j : StepId} {s : Symbol} {p : Term} {mp : Assertion} {σ : Substitution} :
    d.Fires a w i s p mp σ → w.formula? j = some (.binary s (σ.apply p) (σ.apply consequent)) →
      Detaches d a consequent i w (σ.apply consequent) (.assertion mp [i, j])

/-- Detaching the consequent of an implication is correct. -/
theorem Detaches.correct {d : Detachments} (hd : d.Lawful) {a : Assertion} {consequent : Term}
    (hconsequent : a.conclusion.argument 1 = .ok consequent) {i : StepId} {w : Worksheet}
    {f : Term} {j : Justification} (h : d.Detaches a consequent i w f j) : w.Correct f j := by
  cases h with
  | @major s p mp σ hfires =>
    obtain ⟨hhyps, hmp, q, hconcl⟩ := implication?_eq_some hfires.implication
    obtain ⟨-, -, -, -, -, hs⟩ := Assertion.modusPonens?_spec (hd.modusPonens s mp hmp)
    rw [hconcl] at hconsequent
    cases hconsequent
    refine ⟨σ, hfires.ordered, ?_, ?_⟩
    · rw [hhyps]
      rfl
    · rw [hconcl, Substitution.apply_binary hs]
  | @result j s p mp σ hfires hj =>
    obtain ⟨-, hmp, -⟩ := implication?_eq_some hfires.implication
    obtain ⟨φ, ψ, hne, hhyps, hconcl, hs⟩ :=
      Assertion.modusPonens?_spec (hd.modusPonens s mp hmp)
    -- Modus ponens is applied with the two sides of the implication in place of its variables.
    have hnodup : [φ, ψ].Nodup := by simpa using hne
    have hlen : [φ, ψ].length = [σ.apply p, σ.apply consequent].length := rfl
    obtain ⟨τ, hτ, happly⟩ := Substitution.exists_map_apply_leaf_var hnodup hlen
    simp only [List.map_cons, List.map_nil, List.cons.injEq, and_true] at happly
    obtain ⟨hφ, hψ⟩ := happly
    refine ⟨τ, hτ, ?_, ?_⟩
    · simp only [hhyps, List.map_cons, List.map_nil, hfires.antecedent, hj, hφ, hψ,
        Substitution.apply_binary hs]
    · rw [hconcl, hψ]

open Lemmata.Derivation Lemmata.Worksheet

/-- Detaching makes the two steps, and yields the step for the instance of the consequent. -/
theorem detach_derives (d : Detachments) (i : StepId) (consequent : Term) (a : Assertion)
    {w : Worksheet} (hw : w.Valid) :
    Derives (d.Detaches a consequent i) w (d.detach i consequent a) fun j w' =>
      ∃ s p mp σ, d.Fires a w i s p mp σ ∧ w'.formula? j = some (σ.apply consequent) := by
  rw [detach]
  split
  next => exact .throw _
  next s p mp himp =>
    refine (formula_derives i).bind ?_
    rintro f w' - ⟨rfl, hf⟩
    split
    next => exact .throw _
    next σ hσ =>
      obtain ⟨hord, hcov, rfl⟩ := Substitution.ofMatch?_sound hσ
      have hfires : d.Fires a w' i s p mp σ := ⟨himp, hord, hcov, hf⟩
      split
      next => exact .throw _
      next =>
        refine (derive_derives hw fun _ _ => .major hfires).bind fun j w₁ hext hj => ?_
        have hfires₁ : d.Fires a w₁ i s p mp σ := ⟨himp, hord, hcov, hext.formula?_eq_some hf⟩
        refine (derive_derives (hext.valid hw) fun _ _ => .result hfires₁ hj).mono ?_
        exact fun k w₂ _ hk => ⟨s, p, mp, σ, hfires, hk⟩

/-- Detaching goes through if the antecedent matches and binds all variables of the consequent. -/
theorem detach_returns {d : Detachments} {i : StepId} {consequent : Term} {a : Assertion}
    {w : Worksheet} (hw : w.Valid) {s : Symbol} {p f : Term} {mp : Assertion} {σ : Substitution}
    (himp : d.implication? a = some (s, p, mp)) (hf : w.formula? i = some f)
    (hσ : Substitution.ofMatch? p f = some σ) (hbinds : σ.Binds consequent) :
    (d.detach i consequent a).Returns w := by
  have hbound := Substitution.find?_vars_eq_none_iff.mpr hbinds
  rw [detach, himp]
  refine (formula_returns hf).bind (formula_derives (P := fun _ _ _ => True) i) ?_
  rintro g w' - ⟨rfl, hg⟩
  cases Option.some.inj (hf.symm.trans hg)
  have hi : i < w'.size := lt_size_of_formula? hf
  simp only [hσ, hbound]
  refine (derive_returns (List.forall_mem_nil _) _ _).bind
    (derive_derives (P := fun _ _ _ => True) hw fun _ _ => trivial) fun j w₁ hext hj => ?_
  refine derive_returns ?_ _ _
  intro k hk
  simp only [List.mem_cons, List.not_mem_nil, or_false] at hk
  rcases hk with rfl | rfl
  · exact Nat.lt_of_lt_of_le hi hext.size_le
  · exact lt_size_of_formula? hj

end Detachments

end Lemmata
