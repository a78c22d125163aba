import Lemmata.Proofs.Connective.Operators
import Lemmata.Proofs.Worksheet.Reachable

/-!
# Taking apart and putting together

A term is taken apart into its conjuncts by one walk over it, and steps are joined in its pattern
by another, which uses them up one after the other and makes new ones on its way. The two agree on
where conjuncts begin and end, however deep the conjunctions are and whatever their numbers of
operands.

What it is to put a pattern together again is said without either walk: `Rebuilt` takes the formulas
for a conjunction to be the formulas for its operands, one operand after the other. Joining yields a
formula that is rebuilt in this sense (`rebuilt_withConjuncts`), and taking a rebuilt formula apart
goes on inside the formulas that it was rebuilt from (`Rebuilt.conjuncts_eq`). So joining goes
through exactly with as many steps as there are conjuncts, and taking apart undoes it
(`concatenate_rebuilds`).
-/

namespace Lemmata.Conjunctions

open Lemmata.Derivation Lemmata.Worksheet

/-! ## Rebuilt patterns -/

mutual

/-- The last term is the pattern with its conjuncts, from left to right, replaced by the formulas.
Its conjunctions stay. -/
inductive Rebuilt (c : Conjunctions) : Term → List Term → Term → Prop
  | conjunct {p u : Term} : c.rootOf? p = none → Rebuilt c p [u] u
  | conjunction {h : Symbol} {ps us fs : List Term} {k : Conjunction} :
    c.rootOf? (.app h ps) = some k → RebuiltList c ps us fs → Rebuilt c (.app h ps) us (.app h fs)

/-- The formulas for several patterns are those for each of them, one after the other. -/
inductive RebuiltList (c : Conjunctions) : List Term → List Term → List Term → Prop
  | nil : RebuiltList c [] [] []
  | cons {p f : Term} {ps us vs fs : List Term} :
    Rebuilt c p us f → RebuiltList c ps vs fs → RebuiltList c (p :: ps) (us ++ vs) (f :: fs)

end

/-- As many terms are rebuilt as there are patterns. -/
theorem RebuiltList.length_eq {c : Conjunctions} {ps us fs : List Term}
    (h : c.RebuiltList ps us fs) : fs.length = ps.length := by
  induction ps generalizing us fs with
  | nil =>
    cases h
    rfl
  | cons p ps ih =>
    cases h with
    | cons _ hrest => rw [List.length_cons, ih hrest, List.length_cons]

mutual

/-- To replace the conjuncts of a pattern is to rebuild it from as many formulas. -/
theorem rebuilt_withConjuncts (c : Conjunctions) : (p : Term) → (us : List Term) →
    (c.conjuncts p).length ≤ us.length →
      c.Rebuilt p (us.take (c.conjuncts p).length) (c.withConjuncts p us)
  | .app h as, us, hlen => by
    cases hk : c.rootOf? (.app h as) with
    | none =>
      rw [conjuncts_of_rootOf?_none hk] at hlen ⊢
      cases us with
      | nil => cases hlen
      | cons u us =>
        rw [withConjuncts, hk]
        exact .conjunct hk
    | some k =>
      rw [conjuncts_of_rootOf?_some hk] at hlen ⊢
      rw [withConjuncts, hk]
      exact .conjunction hk (rebuiltList_withConjunctsList c as us hlen)

theorem rebuiltList_withConjunctsList (c : Conjunctions) : (ps : List Term) → (us : List Term) →
    (ps.flatMap c.conjuncts).length ≤ us.length →
      c.RebuiltList ps (us.take (ps.flatMap c.conjuncts).length) (c.withConjunctsList ps us)
  | [], us, _ => by
    rw [List.flatMap_nil, List.length_nil, List.take_zero]
    exact .nil
  | p :: ps, us, hlen => by
    rw [List.flatMap_cons, List.length_append] at hlen ⊢
    have hrest : (ps.flatMap c.conjuncts).length ≤ (us.drop (c.conjuncts p).length).length := by
      rw [List.length_drop]
      omega
    rw [List.take_add, withConjunctsList]
    exact .cons (rebuilt_withConjuncts c p us (by omega))
      (rebuiltList_withConjunctsList c ps _ hrest)

end

mutual

/-- A rebuilt pattern falls into the conjuncts of the formulas that it was rebuilt from. -/
theorem Rebuilt.conjuncts_eq {c : Conjunctions} : {p f : Term} → {us : List Term} →
    c.Rebuilt p us f → c.conjuncts f = us.flatMap c.conjuncts
  | _, f, _, .conjunct _ => (List.flatMap_singleton c.conjuncts f).symm
  | .app h _, .app _ _, _, .conjunction hk hlist => by
    -- As many operands as in the pattern, so the root is the same conjunction.
    rw [← c.rootOf?_congr h hlist.length_eq] at hk
    rw [conjuncts_of_rootOf?_some hk]
    exact hlist.conjuncts_eq

theorem RebuiltList.conjuncts_eq {c : Conjunctions} : {ps fs us : List Term} →
    c.RebuiltList ps us fs → fs.flatMap c.conjuncts = us.flatMap c.conjuncts
  | _, _, _, .nil => rfl
  | _, _, _, .cons hhead hlist => by
    rw [List.flatMap_cons, hhead.conjuncts_eq, hlist.conjuncts_eq, List.flatMap_append]

end

/-- Formulas that are no conjunctions are their own conjuncts. -/
theorem flatMap_conjuncts_of_rootOf?_none {c : Conjunctions} {us : List Term}
    (hus : ∀ u ∈ us, c.rootOf? u = none) : us.flatMap c.conjuncts = us := by
  induction us with
  | nil => rfl
  | cons u us ih =>
    obtain ⟨hu, hus⟩ := List.forall_mem_cons.mp hus
    rw [List.flatMap_cons, conjuncts_of_rootOf?_none hu, ih hus, List.singleton_append]

/-! ## Joining and taking apart -/

/-- Joining goes through exactly if there are as many steps as the pattern has conjuncts. The step
that it yields is for the pattern with its conjuncts replaced by the formulas of the steps, and
taking this apart gives the conjuncts of these formulas, which are the formulas themselves if none
of them is a conjunction. -/
theorem concatenate_rebuilds (T : Theory) {w : Worksheet} (hw : w.Reachable) (pattern : Term)
    {steps : List StepId} {us : List Term} (hus : steps.map w.formula? = us.map some) :
    let c := ofTheory T
    ((c.concatenate steps pattern).Returns w ↔ steps.length = (c.conjuncts pattern).length) ∧
      ∀ i w', c.concatenate steps pattern w = (.ok i, w') →
        ∃ f, w'.formula? i = some f ∧ c.Rebuilt pattern us f ∧
          c.conjuncts f = us.flatMap c.conjuncts ∧
          ((∀ u ∈ us, c.rootOf? u = none) → c.conjuncts f = us) := by
  intro c
  have hderives := c.concatenate_derives (fun _ => True) pattern hw.valid hus fun _ _ => trivial
  have hlens : steps.length = us.length := by simpa using congrArg List.length hus
  constructor
  · constructor
    · intro hreturns
      obtain ⟨i, w', h⟩ := hreturns.exists
      obtain ⟨-, hlen, -⟩ := hderives.of_ok h
      exact hlen.symm
    · intro hlen
      exact c.concatenate_returns pattern hw.valid hus hlen.symm
  · intro i w' h
    obtain ⟨-, hlen, hi⟩ := hderives.of_ok h
    have hall : (c.conjuncts pattern).length = us.length := hlen.trans hlens
    have hrebuilt := c.rebuilt_withConjuncts pattern us (Nat.le_of_eq hall)
    rw [hall, List.take_length] at hrebuilt
    refine ⟨_, hi, hrebuilt, hrebuilt.conjuncts_eq, fun hnone => ?_⟩
    rw [hrebuilt.conjuncts_eq, flatMap_conjuncts_of_rootOf?_none hnone]

/-- A conjunction of two formulas, and one of three. -/
def tripledTheory : Theory :=
  statedTheory [⟨"pair", ["p", "q"], "a(p, q)"⟩, ⟨"left", ["a(p, q)"], "p"⟩,
    ⟨"right", ["a(p, q)"], "q"⟩, ⟨"triple", ["p", "q", "r"], "i(p, q, r)"⟩,
    ⟨"first", ["i(p, q, r)"], "p"⟩, ⟨"second", ["i(p, q, r)"], "q"⟩,
    ⟨"third", ["i(p, q, r)"], "r"⟩]

/-- In the pattern `a(i(p, q, r), p)` the steps `r`, `a(p, q)`, `r` and `p`, one of them twice, are
joined to `a(i(r, a(p, q), r), p)`, which has five conjuncts. Three steps are not enough. -/
theorem concatenate_rebuilds_nested :
    ∃ (w w' : Worksheet) (i : StepId) (p q r f : Term),
      let pair (x y : Term) : Term := .app (.op 2) [x, y]
      let triple (x y z : Term) : Term := .app (.op 3) [x, y, z]
      let c := ofTheory tripledTheory
      w.Reachable ∧
        [0, 1, 0, 2].map w.formula? = [r, pair p q, r, p].map some ∧
        c.concatenate [0, 1, 0, 2] (pair (triple p q r) p) w = (.ok i, w') ∧
        w'.formula? i = some f ∧ c.Rebuilt (pair (triple p q r) p) [r, pair p q, r, p] f ∧
        c.conjuncts f = [r, p, q, r, p] ∧
        ¬ (c.concatenate [0, 1, 2] (pair (triple p q r) p)).Returns w := by
  let p : Term := .leaf (.var 2)
  let q : Term := .leaf (.var 3)
  let r : Term := .leaf (.var 4)
  let pair (x y : Term) : Term := .app (.op 2) [x, y]
  let pattern : Term := pair (.app (.op 3) [p, q, r]) p
  let w : Worksheet := (suppose p (suppose (pair p q) (suppose r {}).2).2).2
  have hw : w.Reachable := .suppose _ (.suppose _ (.suppose _ .empty))
  have hus : [0, 1, 0, 2].map w.formula? = [r, pair p q, r, p].map some := by decide +kernel
  have hus' : [0, 1, 2].map w.formula? = [r, pair p q, p].map some := by decide +kernel
  obtain ⟨hiff, hok⟩ := concatenate_rebuilds tripledTheory hw pattern hus
  obtain ⟨hiff', -⟩ := concatenate_rebuilds tripledTheory hw pattern hus'
  obtain ⟨i, w', hrun⟩ := (hiff.mpr (by decide +kernel)).exists
  obtain ⟨f, hf, hrebuilt, hconjuncts, -⟩ := hok i w' hrun
  have hparts : [r, pair p q, r, p].flatMap (ofTheory tripledTheory).conjuncts =
      [r, p, q, r, p] := by decide +kernel
  exact ⟨w, w', i, p, q, r, f, hw, hus, hrun, hf, hrebuilt, hconjuncts.trans hparts,
    mt hiff'.mp (by decide +kernel)⟩

end Lemmata.Conjunctions
