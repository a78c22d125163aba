import Lemmata.Proofs.Closure.Synthesis

/-!
# Closure proofs are sound

Nothing checks the steps of a closure proof. They are correct because of the shapes that the rules
were recognised by: with the open arguments of a term put for the variables of a pure rule, its
hypotheses become the goals for the arguments and its conclusion the goal for the term; joining and
detaching are correct whatever the rule says (`Makes.correct`).

So every worksheet that is filled by suppositions and closure proofs is sound, whatever was tried on
it and wherever it stopped, as long as the properties mention no variables. A property that mentions
one would have to be the same before and after terms are put for the variables.
-/

namespace Lemmata

open Lemmata.Derivation

namespace ClosureCatalog

/-- Every step of a closure proof is correct where it is made. -/
theorem Makes.correct {c : ClosureCatalog} (hc : c.Lawful) {s : Schema}
    (hs : s.template.body.vars = []) {w : Worksheet} {f : Term} {j : Justification}
    (h : c.Makes s w f j) : w.Correct f j := by
  cases h with
  | @goal a t steps ha hsupp hlen =>
    obtain ⟨vs, subjects, args, hstated⟩ := hc.backs_of_assertion? ha
    have hvs : vs.length = (s.openArgs t).length := by
      rw [hstated.length_openArgs hsupp.fits, hstated.length_conditions]
    obtain ⟨σ, hσ, hget⟩ := Substitution.exists_of_nodup hstated.nodup hvs
    have hfixed := hstated.fixedBy_of_vars_eq_nil hs σ
    refine ⟨σ, hσ, ?_, hstated.apply_conclusion hfixed hsupp.fits hget⟩
    rw [hstated.map_apply_conditions hfixed hget]
    exact hsupp.formulas
  | conjoin _ hstep => exact hstep.correct hc.conjunctions
  | detach _ _ _ hq _ hstep => exact hstep.correct hc.detachments hq

end ClosureCatalog

namespace Worksheet

/-- The worksheets that come about by suppositions and closure proofs, with catalogs of the theory
and properties without variables. A proof that stops at a fault leaves the steps it made. -/
inductive Synthesised (T : Theory) : Worksheet → Prop
  | empty : Synthesised T {}
  | suppose {w : Worksheet} (f : Term) : Synthesised T w → Synthesised T (suppose f w).2
  | prove {w : Worksheet} {c : ClosureCatalog} {s : Schema} (t : Term) :
    Synthesised T w → c.Mined T → s.template.body.vars = [] → Synthesised T (c.prove s t w).2

/-- On a worksheet that comes about by suppositions and closure proofs every step is correct. -/
theorem Synthesised.sound {T : Theory} (hT : T.Reachable) {w : Worksheet}
    (hw : w.Synthesised T) : w.Valid ∧ w.Sound := by
  induction hw with
  | empty => exact ⟨valid_empty, sound_empty⟩
  | suppose f _ ih =>
    have hext := (suppose_derives (P := Correct) (f := f) ih.1 fun _ => trivial).extend
    exact ⟨hext.valid ih.1, ih.2.extends hext⟩
  | @prove u c s t _ hc hs ih =>
    have hext := (c.prove_derives s t ih.1).extend
    have hcorrect := hext.mono fun _ _ _ _ hstep => hstep.correct (hc.lawful hT) hs
    exact ⟨hext.valid ih.1, ih.2.extends hcorrect⟩

/-- Every step that is no supposition applies its assertion correctly: one substitution turns the
hypotheses into the formulas of the premises, one for one, and the conclusion into the formula of
the step. -/
theorem Synthesised.step_correct {T : Theory} (hT : T.Reachable) {w : Worksheet}
    (hw : w.Synthesised T) {i : StepId} {f : Term} {a : Assertion} {premises : List StepId}
    (hi : w.step? i = some (f, .assertion a premises)) :
    premises.length = a.hypotheses.length ∧
      ∃ σ : Substitution, σ.Ordered ∧
        (∀ (k : Nat) j h, premises[k]? = some j → a.hypotheses[k]? = some h →
          w.formula? j = some (σ.apply h)) ∧
        σ.apply a.conclusion = f := by
  obtain ⟨σ, hσ, hpremises, hconclusion⟩ := (hw.sound hT).2 i f _ hi
  refine ⟨by simpa using congrArg List.length hpremises, σ, hσ, fun k j h hj hh => ?_, hconclusion⟩
  have hk := congrArg (fun l : List (Option Term) => l[k]?) hpremises
  simpa [hj, hh] using hk

/-! ### Example

From the supposition `x ∈ c` follows `g(x) ∈ c` in two steps: the instance of the implication rule,
and its consequent by modus ponens. -/

open ClosureRule

def sampleCatalog : ClosureCatalog :=
  (Catalogs.ofTheory sampleTheory { pureClosure := false }).closure

def sampleTerm : Term :=
  .app impliedRule.schema.symbol [sampleVar]

def sampleWorksheet : Worksheet :=
  (suppose (sampleProperty sampleVar) {}).2

def provenWorksheet : Worksheet :=
  (sampleCatalog.prove impliedRule.schema sampleTerm sampleWorksheet).2

theorem mined_sampleCatalog : sampleCatalog.Mined sampleTheory :=
  .ofTheory _

theorem synthesised_provenWorksheet : provenWorksheet.Synthesised sampleTheory :=
  .prove sampleTerm (.suppose _ .empty) mined_sampleCatalog (by decide)

theorem step?_provenWorksheet :
    provenWorksheet.step? 2 =
      some (sampleProperty sampleTerm, .assertion samplePonens [0, 1]) := by
  rw [provenWorksheet, sampleCatalog, Catalogs.ofTheory, ClosureCatalog.ofTheory,
    Detachments.ofTheory, Conjunctions.ofTheory, assertions_sampleTheory]
  decide +kernel

/-- The last step follows by modus ponens from the supposition and the instance of the implication
rule. -/
theorem provenWorksheet_step_correct :
    sampleTheory.Reachable ∧ provenWorksheet.Synthesised sampleTheory ∧
      provenWorksheet.step? 2 =
        some (sampleProperty sampleTerm, .assertion samplePonens [0, 1]) ∧
      ∃ σ : Substitution, σ.Ordered ∧
        (∀ (k : Nat) j h, [0, 1][k]? = some j → samplePonens.hypotheses[k]? = some h →
          provenWorksheet.formula? j = some (σ.apply h)) ∧
        σ.apply samplePonens.conclusion = sampleProperty sampleTerm :=
  ⟨reachable_sampleTheory, synthesised_provenWorksheet, step?_provenWorksheet,
    (synthesised_provenWorksheet.step_correct reachable_sampleTheory step?_provenWorksheet).2⟩

end Worksheet

end Lemmata
