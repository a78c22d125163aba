import Lemmata.Proofs.Term.Basic
import Lemmata.Theory.Assertion

/-!
# What assertions are made of

An assertion is made of formulas: its hypotheses and its conclusion. Its mandatory variables are the
variables of these formulas, each listed once and in increasing order.
-/

namespace Lemmata.Assertion

/-- The formulas that an assertion is made of. -/
def formulas (a : Assertion) : List Term :=
  a.conclusion :: a.hypotheses

/-- The hole occurs neither in a hypothesis nor in the conclusion. -/
structure HoleFree (a : Assertion) : Prop where
  hypotheses : ∀ t ∈ a.hypotheses, t.HoleFree
  conclusion : a.conclusion.HoleFree

/-- An assertion is without holes if its formulas are. -/
theorem holeFree_iff {a : Assertion} : a.HoleFree ↔ ∀ t ∈ a.formulas, t.HoleFree := by
  rw [formulas, List.forall_mem_cons]
  exact ⟨fun h => ⟨h.conclusion, h.hypotheses⟩, fun h => ⟨h.2, h.1⟩⟩

/-! ## Mandatory variables -/

/-- A variable is mandatory if it occurs in the conclusion or in a hypothesis. -/
theorem mem_mandatoryVars {a : Assertion} {v : Serial} :
    v ∈ a.mandatoryVars ↔
      .var v ∈ a.conclusion.symbols ∨ ∃ t ∈ a.hypotheses, .var v ∈ t.symbols := by
  rw [mandatoryVars, List.mem_mergeSort, List.mem_eraseDups, List.mem_flatMap]
  simp only [List.mem_cons, Term.mem_vars, exists_eq_or_imp]

/-- No mandatory variable is listed twice. -/
theorem nodup_mandatoryVars (a : Assertion) : a.mandatoryVars.Nodup :=
  (List.mergeSort_perm _ _).nodup_iff.mpr (List.nodup_eraseDups _)

/-- Mandatory variables are listed in increasing order. -/
theorem pairwise_mandatoryVars (a : Assertion) : a.mandatoryVars.Pairwise (· < ·) := by
  have htrans : ∀ u v w : Serial, decide (u ≤ v) → decide (v ≤ w) → decide (u ≤ w) :=
    fun u v w huv hvw => decide_eq_true (Fin.le_trans (of_decide_eq_true huv) (of_decide_eq_true hvw))
  have htotal : ∀ v w : Serial, decide (v ≤ w) || decide (w ≤ v) := by
    intro v w
    simpa using Fin.le_total v w
  have hsorted : a.mandatoryVars.Pairwise fun v w => decide (v ≤ w) :=
    List.pairwise_mergeSort htrans htotal _
  refine (hsorted.and a.nodup_mandatoryVars).imp fun hvw => ?_
  exact Nat.lt_of_le_of_ne (of_decide_eq_true hvw.1) fun hval => hvw.2 (Fin.ext hval)

/-- Hypotheses are labelled with their places, counted from one. -/
theorem map_fst_labelledHypotheses (a : Assertion) :
    a.labelledHypotheses.map (·.1) =
      (List.range a.hypotheses.length).map fun i => a.label ++ "." ++ toString (i + 1) := by
  refine List.ext_getElem (by simp [labelledHypotheses]) fun i _ _ => ?_
  simp [labelledHypotheses, hypothesisLabel]

end Lemmata.Assertion
