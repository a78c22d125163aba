import Lemmata.Proofs.Connective.Additions
import Lemmata.Proofs.Connective.Operators
import Lemmata.Proofs.Worksheet.Reachable

/-!
# When an implication applies

An implication applies to a step if the step proves an instance of the antecedent, and matching the
antecedent with the formula of the step fixes all variables of the consequent (`Applies`). These are
all the conditions there are: everything that can go wrong is found out before the first step is made.

So detaching is atomic (`detach_returns_iff_applies`). Either the implication applies, and the
worksheet gets the instance of the implication and the instance of the consequent, as far as it has no
steps for them, or the worksheet stays as it is.
-/

namespace Lemmata

open Lemmata.Derivation Lemmata.Worksheet

namespace Detachments

/-- The assertion states the implication from `p` to `q`, matching turns `p` into the formula `f` by
the substitution, and this has a term for every variable of the consequent. -/
structure Applies (d : Detachments) (a : Assertion) (f consequent : Term) (s : Symbol) (p q : Term)
    (σ : Substitution) : Prop where
  hypotheses : a.hypotheses = []
  conclusion : a.conclusion = .binary s p q
  implication : d.isImplication s
  matched : Substitution.empty.matchTerm p f = ⟨σ, true⟩
  binds : σ.Binds consequent

namespace Applies

variable {d : Detachments} {a : Assertion} {f consequent : Term} {s : Symbol} {p q : Term}
  {σ : Substitution}

/-- An implication applies in one way only, whatever the consequent. -/
theorem unique (h : d.Applies a f consequent s p q σ) {consequent' : Term} {s' : Symbol}
    {p' q' : Term} {σ' : Substitution} (h' : d.Applies a f consequent' s' p' q' σ') :
    s' = s ∧ p' = p ∧ σ' = σ := by
  have hconcl := h'.conclusion.symm.trans h.conclusion
  simp only [Term.binary, Term.app.injEq, List.cons.injEq] at hconcl
  obtain ⟨rfl, rfl, -⟩ := hconcl
  have hmatch := h'.matched.symm.trans h.matched
  exact ⟨rfl, rfl, congrArg Substitution.Match.subst hmatch⟩

/-- If an implication applies then it can be detached, on any worksheet that has the step. -/
theorem returns (hd : d.Lawful) (h : d.Applies a f consequent s p q σ) {w : Worksheet}
    (hw : w.Valid) {i : StepId} (hf : w.formula? i = some f) :
    (d.detach i consequent a).Returns w := by
  obtain ⟨mp, himp⟩ := hd.exists_implication? h.hypotheses h.conclusion h.implication
  exact detach_returns hw himp hf (Substitution.ofMatch?_eq_some_iff.mpr h.matched) h.binds

/-- The instance of the implication is put together from its parts, and is the conclusion of the
assertion under the substitution if the consequent is its own. -/
theorem instance_eq (hd : d.Lawful) (h : d.Applies a f consequent s p q σ) :
    .binary s f (σ.apply q) = σ.apply a.conclusion := by
  obtain ⟨mp, hmp⟩ := hd.valid.exists_of_contains h.implication
  obtain ⟨-, -, -, -, -, hs⟩ := Assertion.modusPonens?_spec (hd.modusPonens s mp hmp)
  obtain ⟨-, happly⟩ := Substitution.matchTerm_sound _ _ _ h.matched
  rw [h.conclusion, Substitution.apply_binary hs, happly]

end Applies

variable {d : Detachments} {w w' : Worksheet} {i j : StepId} {f consequent : Term} {a : Assertion}

/-- A detachment that goes through has entered the two instances of an implication that applies. -/
theorem exists_applies_of_ok (hf : w.formula? i = some f)
    (h : d.detach i consequent a w = (.ok j, w')) :
    ∃ s p q σ mp k u, d.Applies a f consequent s p q σ ∧
      w.enter (.binary s f (σ.apply consequent)) (.assertion a []) = (k, u) ∧
      u.enter (σ.apply consequent) (.assertion mp [i, k]) = (j, w') := by
  obtain ⟨s, p, mp, σ, k, hfires, hσ, hbinds, u, hmajor, hresult⟩ := detach_eq_ok h
  cases Option.some.inj (hf.symm.trans hfires.antecedent)
  obtain ⟨hhyps, hmp, q, hconcl⟩ := implication?_eq_some hfires.implication
  have himp : d.isImplication s := Registry.contains_of_get? hmp
  have hm := Substitution.ofMatch?_eq_some_iff.mp hσ
  exact ⟨s, p, q, σ, mp, k, u, ⟨hhyps, hconcl, himp, hm, hbinds⟩, hmajor, hresult⟩

/-- Detaching stops before the first step or not at all. -/
theorem detach_of_not_returns (hw : w.Valid) (h : ¬ (d.detach i consequent a).Returns w) :
    (d.detach i consequent a w).2 = w := by
  cases himp : d.implication? a with
  | none =>
    rw [detach, himp]
    rfl
  | some r =>
    obtain ⟨s, p, mp⟩ := r
    cases hf : w.formula? i with
    | none =>
      have hrun : Worksheet.formula i w = (.error .outOfRange, w) := by rw [Worksheet.formula, hf]
      simp only [detach, himp, run_bind_error hrun]
    | some f =>
      have hrun : Worksheet.formula i w = (.ok f, w) := by rw [Worksheet.formula, hf]
      cases hσ : Substitution.ofMatch? p f with
      | none =>
        simp only [detach, himp, run_bind_ok hrun, hσ]
        rfl
      | some σ =>
        cases hfree : consequent.vars.find? fun v => (σ.get? v).isNone with
        | some v =>
          simp only [detach, himp, run_bind_ok hrun, hσ, hfree]
          rfl
        | none =>
          -- From here on both steps are made, since their premises are there.
          have hbinds := Substitution.find?_vars_eq_none_iff.mp hfree
          exact absurd (detach_returns hw himp hf hσ hbinds) h

/-- Detaching from a step goes through exactly if the implication applies to it, and otherwise leaves
the worksheet as it is. It yields the step for the instance of the consequent, next to a step for the
instance of the implication, and makes no other steps. -/
theorem detach_returns_iff_applies (T : Theory) {w : Worksheet} (hw : w.Reachable) {i : StepId}
    {f : Term} (hf : w.formula? i = some f) (a : Assertion) (consequent : Term) :
    let d := ofTheory T
    ((d.detach i consequent a).Returns w ↔ ∃ s p q σ, d.Applies a f consequent s p q σ) ∧
      (¬ (d.detach i consequent a).Returns w → (d.detach i consequent a w).2 = w) ∧
      ∀ j w', d.detach i consequent a w = (.ok j, w') →
        ∀ s p q σ, d.Applies a f consequent s p q σ →
          w'.formula? j = some (σ.apply consequent) ∧
          w'.Proves (.binary s f (σ.apply consequent)) ∧
          (consequent = q → .binary s f (σ.apply consequent) = σ.apply a.conclusion) ∧
          ∃ new, w'.steps.toList = w.steps.toList ++ new ∧
            (new.map Prod.fst).Sublist [.binary s f (σ.apply consequent), σ.apply consequent] := by
  intro d
  have hd : d.Lawful := lawful_ofTheory T
  refine ⟨⟨?_, ?_⟩, detach_of_not_returns hw.valid, ?_⟩
  · intro hreturns
    obtain ⟨j, w', h⟩ := hreturns.exists
    obtain ⟨s, p, q, σ, -, -, -, happlies, -⟩ := exists_applies_of_ok hf h
    exact ⟨s, p, q, σ, happlies⟩
  · rintro ⟨s, p, q, σ, happlies⟩
    exact happlies.returns hd hw.valid hf
  · intro j w' h s p q σ happlies
    obtain ⟨s', p', q', σ', mp, k, u, happlies', hmajor, hresult⟩ := exists_applies_of_ok hf h
    obtain ⟨rfl, rfl, rfl⟩ := happlies.unique happlies'
    obtain ⟨hj, hproves, hnew⟩ := enter_enter hw.valid hmajor hresult
    refine ⟨hj, hproves, ?_, hnew⟩
    intro hq
    rw [hq]
    exact happlies.instance_eq hd

/-- From `a(e(c, c), e(f(c, c), c))` follows `e(f(c, f(c, c)), c)` by the implication
`i(a(e(x, c), e(y, c)), e(f(x, y), c))`, but the variable `r` does not, since the antecedent leaves it
open. -/
theorem detach_returns_iff_applies_sum :
    ∃ (w u : Worksheet) (f p q r : Term) (a : Assertion) (j : StepId) (σ : Substitution),
      w.Reachable ∧ w.formula? 0 = some f ∧
      (ofTheory Conjunctions.pairedTheory).Applies a f q (.op 3) p q σ ∧
      (ofTheory Conjunctions.pairedTheory).detach 0 q a w = (.ok j, u) ∧
      u.formula? j = some (σ.apply q) ∧ u.Proves (σ.apply a.conclusion) ∧
      ¬ ((ofTheory Conjunctions.pairedTheory).detach 0 r a).Returns w ∧
      ((ofTheory Conjunctions.pairedTheory).detach 0 r a w).2 = w := by
  let c : Term := .leaf (.op 0)
  let sum (x y : Term) : Term := .binary (.op 1) x y
  let equal (x : Term) : Term := .binary (.op 4) x c
  let p : Term := .binary (.op 2) (equal (.leaf (.var 0))) (equal (.leaf (.var 1)))
  let q : Term := equal (sum (.leaf (.var 0)) (.leaf (.var 1)))
  let a : Assertion := ⟨"sum", [], .binary (.op 3) p q⟩
  let f : Term := .binary (.op 2) (equal c) (equal (sum c c))
  let w : Worksheet := (suppose f {}).2
  let σ : Substitution := (Substitution.empty.bind 0 c).bind 1 (sum c c)
  have hw : w.Reachable := .suppose f .empty
  have hf : w.formula? 0 = some f := rfl
  have happlies : (ofTheory Conjunctions.pairedTheory).Applies a f q (.op 3) p q σ :=
    ⟨rfl, rfl, by decide +kernel, by decide +kernel, by decide⟩
  obtain ⟨hiff, -, hok⟩ := detach_returns_iff_applies Conjunctions.pairedTheory hw hf a q
  obtain ⟨j, u, hrun⟩ := (hiff.mpr ⟨_, _, _, _, happlies⟩).exists
  obtain ⟨hj, hproves, hinstance, -⟩ := hok j u hrun _ _ _ _ happlies
  rw [hinstance rfl] at hproves
  -- the substitution has no term for the variable of the other consequent
  have hopen : ¬ ∃ s p' q' σ', (ofTheory Conjunctions.pairedTheory).Applies a f
      (.leaf (.var 4)) s p' q' σ' := by
    rintro ⟨s, p', q', σ', happlies'⟩
    obtain ⟨-, -, rfl⟩ := happlies'.unique happlies
    exact absurd happlies'.binds (by decide)
  obtain ⟨hiff', hkept, -⟩ :=
    detach_returns_iff_applies Conjunctions.pairedTheory hw hf a (.leaf (.var 4))
  have hstops := mt hiff'.mp hopen
  exact ⟨w, u, f, p, q, .leaf (.var 4), a, j, σ, hw, hf, happlies, hrun, hj, hproves, hstops,
    hkept hstops⟩

end Detachments

end Lemmata
