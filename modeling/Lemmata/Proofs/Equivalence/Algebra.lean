import Lemmata.Proofs.Equivalence.Catalog
import Lemmata.Proofs.Theory.Reachable
import Lemmata.Proofs.Worksheet.Reachable
import Lemmata.Proofs.Worksheet.Soundness

/-!
# The algebra of equivalences

The lemmas of an equivalence are about a relation between two terms. A step of a worksheet may apply
the same symbol to more of them, though, and turning the step around or chaining it looks at its
first two arguments only (`reverse_eq_ok_iff`, `join_eq_ok_iff`). The step that is made is an instance
of its lemma exactly if there were no further arguments (`reverse_chain_correct_iff`); otherwise it is
entered all the same (`reverse_chain_drop_argument`).
-/

namespace Lemmata

/-- A term has a second argument exactly if it applies its root to two terms at least. -/
theorem Term.arguments_eq_ok_iff {t a b : Term} :
    t.argument 0 = .ok a ∧ t.argument 1 = .ok b ↔ ∃ rest, t = .app t.head (a :: b :: rest) := by
  cases t with
  | app r as =>
    match as with
    | [] => simp [argument, args, head]
    | [a'] => simp [argument, args, head]
    | a' :: b' :: rest => simp [argument, args, head]

/-- A term with at least two arguments relates just two terms if it has no more arguments. -/
theorem Term.app_eq_binary_iff {r : Symbol} {a b c d : Term} {rest : List Term} :
    Term.app r (a :: b :: rest) = .binary r c d ↔ a = c ∧ b = d ∧ rest = [] := by
  simp [Term.binary]

namespace EquivalenceCatalog

open Lemmata.Derivation Lemmata.Worksheet

/-! ## What goes through -/

/-- Turning a step around goes through exactly if it applies an equivalence to two terms at least. -/
theorem reverse_eq_ok_iff {c : EquivalenceCatalog} {source i : StepId} {w w' : Worksheet} :
    c.reverse source w = (.ok i, w') ↔
      ∃ r a b rest comm, w.formula? source = some (.app r (a :: b :: rest)) ∧
        c.commutativity? r = some comm ∧
        w.enter (.binary r b a) (.assertion comm [source]) = (i, w') := by
  unfold reverse
  rw [run_formula_bind_eq_ok_iff]
  constructor
  · rintro ⟨f, hf, h⟩
    cases hcomm : c.commutativity? f.head with
    | none =>
      rw [hcomm] at h
      cases h
    | some comm =>
      rw [hcomm] at h
      obtain ⟨b, hb, h⟩ := run_lift_bind_eq_ok_iff.mp h
      obtain ⟨a, ha, h⟩ := run_lift_bind_eq_ok_iff.mp h
      obtain ⟨rest, hargs⟩ := Term.arguments_eq_ok_iff.mp ⟨ha, hb⟩
      rw [hargs] at hf
      exact ⟨f.head, a, b, rest, comm, hf, hcomm, (derive_eq_ok_iff.mp h).2⟩
  · rintro ⟨r, a, b, rest, comm, hf, hcomm, henter⟩
    have hlt : ∀ k ∈ [source], k < w.size := by
      simpa using lt_size_of_formula? hf
    refine ⟨_, hf, ?_⟩
    simp only [Term.head, hcomm]
    refine run_lift_bind_eq_ok_iff.mpr ⟨b, rfl, ?_⟩
    refine run_lift_bind_eq_ok_iff.mpr ⟨a, rfl, ?_⟩
    exact derive_eq_ok_iff.mpr ⟨hlt, henter⟩

/-- Two steps can be joined exactly if they prove the same relation, the second starts where the
first ends, and there is a lemma that chains the relation. -/
theorem join_eq_ok_iff {c : EquivalenceCatalog} {first second i : StepId} {w w' : Worksheet} :
    c.join first second w = (.ok i, w') ↔
      ∃ r a b d rest rest' trans, w.formula? first = some (.app r (a :: b :: rest)) ∧
        w.formula? second = some (.app r (b :: d :: rest')) ∧
        c.transitivity? r = some trans ∧
        w.enter (.binary r a d) (.assertion trans [first, second]) = (i, w') := by
  unfold join
  rw [run_formula_bind_eq_ok_iff]
  constructor
  · rintro ⟨f, hf, h⟩
    obtain ⟨g, hg, h⟩ := run_formula_bind_eq_ok_iff.mp h
    dsimp only at h
    split at h
    next => cases h
    next hhead =>
      obtain ⟨b, hb, h⟩ := run_lift_bind_eq_ok_iff.mp h
      obtain ⟨b', hb', h⟩ := run_lift_bind_eq_ok_iff.mp h
      split at h
      next => cases h
      next heq =>
        cases htrans : c.transitivity? f.head with
        | none =>
          rw [htrans] at h
          cases h
        | some trans =>
          rw [htrans] at h
          obtain ⟨a, ha, h⟩ := run_lift_bind_eq_ok_iff.mp h
          obtain ⟨d, hd, h⟩ := run_lift_bind_eq_ok_iff.mp h
          obtain rfl : b = b' := Decidable.not_not.mp heq
          obtain ⟨rest, hfargs⟩ := Term.arguments_eq_ok_iff.mp ⟨ha, hb⟩
          obtain ⟨rest', hgargs⟩ := Term.arguments_eq_ok_iff.mp ⟨hb', hd⟩
          rw [hfargs] at hf
          rw [hgargs, Decidable.not_not.mp hhead] at hg
          exact ⟨f.head, a, b, d, rest, rest', trans, hf, hg, htrans, (derive_eq_ok_iff.mp h).2⟩
  · rintro ⟨r, a, b, d, rest, rest', trans, hf, hg, htrans, henter⟩
    have hlt : ∀ k ∈ [first, second], k < w.size := by
      simpa using ⟨lt_size_of_formula? hf, lt_size_of_formula? hg⟩
    refine ⟨_, hf, run_formula_bind_eq_ok_iff.mpr ⟨_, hg, ?_⟩⟩
    simp only [Term.head, ne_eq, not_true_eq_false, ↓reduceIte, htrans]
    refine run_lift_bind_eq_ok_iff.mpr ⟨b, rfl, ?_⟩
    refine run_lift_bind_eq_ok_iff.mpr ⟨b, rfl, ?_⟩
    simp only [not_true_eq_false, ↓reduceIte]
    refine run_lift_bind_eq_ok_iff.mpr ⟨a, rfl, ?_⟩
    refine run_lift_bind_eq_ok_iff.mpr ⟨d, rfl, ?_⟩
    exact derive_eq_ok_iff.mpr ⟨hlt, henter⟩

/-! ## What is made -/

/-- A step turned around is an instance of the lemma exactly if it relates just two terms. -/
theorem correct_turned_iff {w : Worksheet} {source : StepId} {r : Symbol} {a b : Term}
    {rest : List Term} {comm : Assertion} (hcomm : comm.commutes = .ok r)
    (hf : w.formula? source = some (.app r (a :: b :: rest))) :
    w.Correct (.binary r b a) (.assertion comm [source]) ↔ rest = [] := by
  obtain ⟨⟨o, rfl⟩, x, y, hne, hhyps, hconcl⟩ := Assertion.commutes_eq_ok_iff.mp hcomm
  have hbinary := fun σ => Substitution.apply_binary (σ := σ) (s := .op o) rfl
  constructor
  · rintro ⟨σ, -, hpremises, -⟩
    simp only [hhyps, List.map_cons, List.map_nil, hf, hbinary, List.cons.injEq, and_true,
      Option.some.injEq, Term.app_eq_binary_iff] at hpremises
    exact hpremises.2.2
  · rintro rfl
    have hnodup : [x, y].Nodup := by simpa using hne
    have hlen : [x, y].length = [a, b].length := rfl
    obtain ⟨σ, hσ, happly⟩ := Substitution.exists_map_apply_leaf_var hnodup hlen
    simp only [List.map_cons, List.map_nil, List.cons.injEq, and_true] at happly
    obtain ⟨hx, hy⟩ := happly
    refine ⟨σ, hσ, ?_, ?_⟩
    · simp only [hhyps, List.map_cons, List.map_nil, hf, hbinary, hx, hy]
      rfl
    · rw [hconcl, hbinary, hx, hy]

/-- The step that joins two others is an instance of the lemma exactly if each of them relates just
two terms. -/
theorem correct_joined_iff {w : Worksheet} {first second : StepId} {r : Symbol} {a b d : Term}
    {rest rest' : List Term} {trans : Assertion} (htrans : trans.chains = .ok r)
    (hf : w.formula? first = some (.app r (a :: b :: rest)))
    (hg : w.formula? second = some (.app r (b :: d :: rest'))) :
    w.Correct (.binary r a d) (.assertion trans [first, second]) ↔ rest = [] ∧ rest' = [] := by
  obtain ⟨⟨o, rfl⟩, x, y, z, hnodup, hhyps, hconcl⟩ := Assertion.chains_eq_ok_iff.mp htrans
  have hbinary := fun σ => Substitution.apply_binary (σ := σ) (s := .op o) rfl
  constructor
  · rintro ⟨σ, -, hpremises, -⟩
    simp only [hhyps, List.map_cons, List.map_nil, hf, hg, hbinary, List.cons.injEq, and_true,
      Option.some.injEq, Term.app_eq_binary_iff] at hpremises
    exact ⟨hpremises.1.2.2, hpremises.2.2.2⟩
  · rintro ⟨rfl, rfl⟩
    have hlen : [x, y, z].length = [a, b, d].length := rfl
    obtain ⟨σ, hσ, happly⟩ := Substitution.exists_map_apply_leaf_var hnodup hlen
    simp only [List.map_cons, List.map_nil, List.cons.injEq, and_true] at happly
    obtain ⟨hx, hy, hz⟩ := happly
    refine ⟨σ, hσ, ?_, ?_⟩
    · simp only [hhyps, List.map_cons, List.map_nil, hf, hg, hbinary, hx, hy, hz]
      rfl
    · rw [hconcl, hbinary, hx, hz]

/-- When turning a step around, or joining two steps, with the equivalences of a theory enters a new
step, it does so by the lemma of the relation, and the step is an instance of the lemma exactly if
the steps it rests on relate just two terms each. -/
theorem reverse_chain_correct_iff (T : Theory) (selection : Selection) (w w' : Worksheet)
    (i : StepId) (hsize : w.size < w'.size) :
    (∀ source, (ofTheory T selection).reverse source w = (.ok i, w') →
      ∃ r a b rest comm, w.formula? source = some (.app r (a :: b :: rest)) ∧
        (ofTheory T selection).commutativity? r = some comm ∧
        i = w.size ∧ w' = w.append (.binary r b a) (.assertion comm [source]) ∧
        (w'.Correct (.binary r b a) (.assertion comm [source]) ↔ rest = [])) ∧
      ∀ first second, (ofTheory T selection).chain (some first) second w = (.ok i, w') →
        ∃ r a b d rest rest' trans, w.formula? first = some (.app r (a :: b :: rest)) ∧
          w.formula? second = some (.app r (b :: d :: rest')) ∧
          (ofTheory T selection).transitivity? r = some trans ∧
          i = w.size ∧ w' = w.append (.binary r a d) (.assertion trans [first, second]) ∧
          (w'.Correct (.binary r a d) (.assertion trans [first, second]) ↔
            rest = [] ∧ rest' = []) := by
  have hlawful := lawful_ofTheory T selection
  constructor
  · intro source h
    obtain ⟨r, a, b, rest, comm, hf, hcomm, henter⟩ := reverse_eq_ok_iff.mp h
    obtain ⟨-, rfl, rfl⟩ := enter_eq_append henter hsize
    exact ⟨r, a, b, rest, comm, hf, hcomm, rfl, rfl,
      correct_turned_iff (hlawful.commutativity hcomm) (formula?_append_eq_some hf _ _)⟩
  · intro first second h
    obtain ⟨r, a, b, d, rest, rest', trans, hf, hg, htrans, henter⟩ := join_eq_ok_iff.mp h
    obtain ⟨-, rfl, rfl⟩ := enter_eq_append henter hsize
    exact ⟨r, a, b, d, rest, rest', trans, hf, hg, htrans, rfl, rfl,
      correct_joined_iff (hlawful.transitivity htrans) (formula?_append_eq_some hf _ _)
        (formula?_append_eq_some hg _ _)⟩

/-! ## A relation between three terms -/

/-- If the turned formula is new, it gets a step at the end. -/
theorem reverse_enters {c : EquivalenceCatalog} {w : Worksheet} {source : StepId} {r : Symbol}
    {a b : Term} {rest : List Term} {comm : Assertion}
    (hf : w.formula? source = some (.app r (a :: b :: rest))) (hcomm : c.commutativity? r = some comm)
    (hnew : w.find? (.binary r b a) = none) :
    c.reverse source w = (.ok w.size, w.append (.binary r b a) (.assertion comm [source])) :=
  reverse_eq_ok_iff.mpr ⟨r, a, b, rest, comm, hf, hcomm, enter_of_find?_none hnew _⟩

/-- If the joined formula is new, it gets a step at the end. -/
theorem chain_enters {c : EquivalenceCatalog} {w : Worksheet} {first second : StepId} {r : Symbol}
    {a b d : Term} {rest rest' : List Term} {trans : Assertion}
    (hf : w.formula? first = some (.app r (a :: b :: rest)))
    (hg : w.formula? second = some (.app r (b :: d :: rest')))
    (htrans : c.transitivity? r = some trans) (hnew : w.find? (.binary r a d) = none) :
    c.chain (some first) second w =
      (.ok w.size, w.append (.binary r a d) (.assertion trans [first, second])) :=
  join_eq_ok_iff.mpr ⟨r, a, b, d, rest, rest', trans, hf, hg, htrans, enter_of_find?_none hnew _⟩

def relationTheory : Theory :=
  (Theory.build {
    vars := [⟨"class", ["x", "y", "z"]⟩]
    operators := [⟨"wff", ["e"]⟩]
    statements := [⟨"turn", ["e(x, y)"], "e(y, x)"⟩, ⟨"chain", ["e(x, y)", "e(y, z)"], "e(x, z)"⟩] }
    {}).2

theorem exists_lemmas_relationTheory :
    ∃ comm trans, (ofTheory relationTheory {}).commutativity? (.op 0) = some comm ∧
      (ofTheory relationTheory {}).transitivity? (.op 0) = some trans := by
  have hcomm : ((ofTheory relationTheory {}).commutativity? (.op 0)).isSome := by decide +kernel
  have htrans : ((ofTheory relationTheory {}).transitivity? (.op 0)).isSome := by decide +kernel
  obtain ⟨comm, hcomm⟩ := Option.isSome_iff_exists.mp hcomm
  obtain ⟨trans, htrans⟩ := Option.isSome_iff_exists.mp htrans
  exact ⟨comm, trans, hcomm, htrans⟩

/-- The worksheet of two suppositions. -/
def supposing (f g : Term) : Worksheet :=
  (suppose g (suppose f {}).2).2

theorem reachable_supposing (f g : Term) : (supposing f g).Reachable :=
  .suppose g (.suppose f .empty)

/-- From `e(x, y)` and `e(y, z)` the steps `e(y, x)` and `e(x, z)` are made, which are correct. -/
theorem relationTheory_reverse_chain_correct :
    ∃ w : Worksheet, w.Reachable ∧
      (∃ w' f j, (ofTheory relationTheory {}).reverse 0 w = (.ok w.size, w') ∧
        w.size < w'.size ∧ w'.step? w.size = some (f, j) ∧ w'.Correct f j) ∧
      ∃ w' f j, (ofTheory relationTheory {}).chain (some 0) 1 w = (.ok w.size, w') ∧
        w.size < w'.size ∧ w'.step? w.size = some (f, j) ∧ w'.Correct f j := by
  obtain ⟨comm, trans, hcomm, htrans⟩ := exists_lemmas_relationTheory
  let w := supposing (.binary (.op 0) (.leaf (.var 0)) (.leaf (.var 1)))
    (.binary (.op 0) (.leaf (.var 1)) (.leaf (.var 2)))
  have hf : w.formula? 0 = some (.app (.op 0) [.leaf (.var 0), .leaf (.var 1)]) := by decide +kernel
  have hg : w.formula? 1 = some (.app (.op 0) [.leaf (.var 1), .leaf (.var 2)]) := by decide +kernel
  have hreverse := reverse_enters hf hcomm (by decide +kernel)
  have hchain := chain_enters hf hg htrans (by decide +kernel)
  have hsize : ∀ f j, w.size < (w.append f j).size := by simp
  refine ⟨w, reachable_supposing _ _,
    ⟨_, _, _, hreverse, hsize _ _, step?_append_size w _ _, ?_⟩,
    ⟨_, _, _, hchain, hsize _ _, step?_append_size w _ _, ?_⟩⟩
  · obtain ⟨r, a, b, rest, comm', hf', hcomm', -, -, hiff⟩ :=
      (reverse_chain_correct_iff relationTheory {} w _ _ (hsize _ _)).1 0 hreverse
    rw [hf] at hf'
    cases hf'
    rw [hcomm] at hcomm'
    cases hcomm'
    exact hiff.mpr rfl
  · obtain ⟨r, a, b, d, rest, rest', trans', hf', hg', htrans', -, -, hiff⟩ :=
      (reverse_chain_correct_iff relationTheory {} w _ _ (hsize _ _)).2 0 1 hchain
    rw [hf] at hf'
    cases hf'
    rw [hg] at hg'
    cases hg'
    rw [htrans] at htrans'
    cases htrans'
    exact hiff.mpr ⟨rfl, rfl⟩

/-- From `e(x, y, z)` and `e(y, z)` the steps `e(y, x)` and `e(x, z)` are made all the same, although
they are not correct. -/
theorem reverse_chain_drop_argument :
    ∃ w : Worksheet, w.Reachable ∧
      (∃ w' f j, (ofTheory relationTheory {}).reverse 0 w = (.ok w.size, w') ∧
        w'.step? w.size = some (f, j) ∧ ¬ w'.Correct f j) ∧
      ∃ w' f j, (ofTheory relationTheory {}).chain (some 0) 1 w = (.ok w.size, w') ∧
        w'.step? w.size = some (f, j) ∧ ¬ w'.Correct f j := by
  obtain ⟨comm, trans, hcomm, htrans⟩ := exists_lemmas_relationTheory
  have hlawful := lawful_ofTheory relationTheory {}
  let w := supposing (.app (.op 0) [.leaf (.var 0), .leaf (.var 1), .leaf (.var 2)])
    (.binary (.op 0) (.leaf (.var 1)) (.leaf (.var 2)))
  have hf : w.formula? 0 = some (.app (.op 0) [.leaf (.var 0), .leaf (.var 1), .leaf (.var 2)]) := by
    decide +kernel
  have hg : w.formula? 1 = some (.app (.op 0) [.leaf (.var 1), .leaf (.var 2)]) := by decide +kernel
  have hreverse := reverse_enters hf hcomm (by decide +kernel)
  have hchain := chain_enters hf hg htrans (by decide +kernel)
  refine ⟨w, reachable_supposing _ _, ⟨_, _, _, hreverse, step?_append_size w _ _, ?_⟩,
    ⟨_, _, _, hchain, step?_append_size w _ _, ?_⟩⟩
  · rw [correct_turned_iff (hlawful.commutativity hcomm) (formula?_append_eq_some hf _ _)]
    simp
  · rw [correct_joined_iff (hlawful.transitivity htrans) (formula?_append_eq_some hf _ _)
      (formula?_append_eq_some hg _ _)]
    simp

end EquivalenceCatalog

end Lemmata
