import Lemmata.Proofs.Closure.Conservation

/-!
# Whether a closure proof goes through

`canProve` looks at a worksheet that stays as it is, and at nothing but the schema and the formulas
that have steps. `prove` works on a worksheet that grows under it, and can stop at many places: for
want of a rule, at a wrong number of steps, at an antecedent that does not match, at a variable that
is left open, at a result that is not the goal. Still the one decides the other
(`canProve_iff_prove_returns`).

The way from `prove` to `canProve` is conservation: what is proved is on the worksheet afterwards,
and so it could be proved before. The other way goes through the term, and each of the places to
stop is ruled out by what the rule states (`conclude_returns`).
-/

namespace Lemmata.ClosureCatalog

open Lemmata.Derivation Lemmata.Worksheet

/-- The antecedent of an implication rule matches the conjunction of the goals for the open
arguments of a term that fits. -/
theorem exists_match {c : ClosureCatalog} (hc : c.Lawful) {s : Schema}
    (hs : s.template.body.vars = []) {t p q : Term} (ht : s.fits t) {vs : List Serial}
    {subjects args : List Term}
    (hstated : s.Stated (c.conjunctions.conjuncts p) q vs subjects args) :
    ∃ σ, Substitution.ofMatch? p
      (c.conjunctions.withConjuncts p ((s.openArgs t).map s.goal)) = some σ := by
  have hlen := hstated.length_openArgs ht
  obtain ⟨ρ, -, hget⟩ :=
    Substitution.exists_of_nodup hstated.nodup (hlen.trans hstated.length_conditions).symm
  have hconds := hstated.map_apply_conditions (hstated.fixedBy_of_vars_eq_nil hs ρ) hget
  have hcov : ρ.Covers p := hc.conjunctions.covers_iff.mpr fun u hu =>
    hstated.covers_conditions (Substitution.isSome_of_map_get? hget) hu
  have hlen' : (c.conjunctions.conjuncts p).length = ((s.openArgs t).map s.goal).length := by
    rw [List.length_map, hlen]
  have happly : ρ.apply p = c.conjunctions.withConjuncts p ((s.openArgs t).map s.goal) := by
    refine ((Conjunctions.withConjuncts_eq_apply_iff hc.conjunctions ρ p _
      (Nat.le_of_eq hlen')).mpr ?_).symm
    rw [hlen', List.take_length, hconds]
  obtain ⟨σ, hσ, -⟩ := Substitution.ofMatch?_complete hcov happly
  exact ⟨σ, hσ⟩

/-- From the joined goals the consequent can be detached: the antecedent matches, and the match
binds all variables of the rule. -/
theorem Joins.detach_returns {c : ClosureCatalog} (hc : c.Lawful) {s : Schema}
    (hs : s.template.body.vars = []) {w : Worksheet} (hw : w.Valid) {t p q : Term} {i : StepId}
    (hjoin : c.Joins s w t p i) (ht : s.fits t) (hdepth : q.depth ≤ 3) {vs : List Serial}
    {subjects args : List Term}
    (hstated : s.Stated (c.conjunctions.conjuncts p) q vs subjects args) {a mp : Assertion}
    {f : Symbol} (hmp : c.detachments.implication? a = some (f, p, mp)) :
    (c.detachments.detach i q a).Returns w := by
  obtain ⟨σ, hσ⟩ := exists_match hc hs ht hstated
  obtain ⟨-, hcov, happly⟩ := Substitution.ofMatch?_sound hσ
  have hget := (hjoin.bindings hc hdepth hstated hcov (happly ▸ hjoin.formula)).2
  have hvars : ∀ v ∈ q.vars, (σ.get? v).isSome := fun v hv =>
    Substitution.isSome_of_map_get? hget v (hstated.mem_of_mem_vars hs hdepth hv)
  exact Detachments.detach_returns hw hmp hjoin.formula hσ hvars

/-- The step for a supported goal is made if a rule states the schema. -/
theorem conclude_returns {c : ClosureCatalog} (hc : c.Lawful) {s : Schema}
    (hs : s.template.body.vars = []) {w : Worksheet} (hw : w.Valid) {t : Term}
    {steps : List StepId} (h : s.Supports w t steps) (hstates : c.states s) :
    (c.conclude s (s.goal t) steps).Returns w := by
  obtain ⟨kind, b, hb⟩ := hc.states_iff.mp hstates
  rw [conclude]
  split
  next a ha =>
    obtain ⟨_, _, _, hstated⟩ := hc.backs_of_assertion? ha
    rw [if_pos (h.length_steps.trans (hstated.length_openArgs h.fits))]
    exact derive_returns (lt_size_of_map_formula? h.formulas) _ _
  next hnone =>
    have himplication : ∃ a, c.assertion? .implication s = some a := by
      cases kind with
      | pure => cases hnone.symm.trans hb
      | implication => exact ⟨b, hb⟩
    obtain ⟨a, ha⟩ := himplication
    obtain ⟨hhyps, f, p, q, hconcl, hf, hdepth, vs, subjects, args, hstated⟩ :=
      hc.backs_of_assertion? ha
    obtain ⟨mp, hmp⟩ := hc.detachments.exists_implication? hhyps hconcl hf
    have hp : a.conclusion.argument 0 = .ok p := by
      rw [hconcl]
      rfl
    have hq : a.conclusion.argument 1 = .ok q := by
      rw [hconcl]
      rfl
    have hlen : (c.conjunctions.conjuncts p).length = steps.length := by
      rw [h.length_steps, hstated.length_openArgs h.fits]
    simp only [ha, hp, hq]
    -- The steps are as many as the conjuncts, so they can be joined.
    refine Returns.bind ⟨p, rfl⟩ (Derives.lift (P := c.Makes s) _) ?_
    rintro _ w - ⟨rfl, ⟨⟩⟩
    have hjoin := c.conjunctions.concatenate_derives (fun _ => True) p hw h.formulas
      fun _ _ => trivial
    refine (c.conjunctions.concatenate_returns p hw h.formulas hlen).bind hjoin ?_
    rintro i w₁ hext ⟨-, hi⟩
    refine Returns.bind ⟨q, rfl⟩ (Derives.lift (P := c.Makes s) _) ?_
    rintro _ w₂ - ⟨rfl, ⟨⟩⟩
    have hw₂ := hext.valid hw
    have hjoins : c.Joins s w₂ t p i := ⟨hlen.trans h.length_steps, hi⟩
    refine (hjoins.detach_returns hc hs hw₂ h.fits hdepth hstated hmp).bind
      (c.detachments.detach_derives i q a hw₂) ?_
    rintro k w₃ - ⟨_, _, _, τ, hfires, hk⟩
    -- What is detached is the goal.
    cases hfires.eq_antecedent hconcl
    rw [hjoins.apply_eq hc h.fits hdepth hstated hfires.covers hfires.antecedent] at hk
    refine (formula_returns hk).bind (formula_derives (P := c.Makes s) k) ?_
    rintro g w₄ - ⟨rfl, hg⟩
    rw [if_pos (Option.some.inj (hg.symm.trans hk))]
    exact ⟨k, rfl⟩

mutual

/-- A closure proof goes through if the term can be proved to have the property. -/
theorem prove_returns {c : ClosureCatalog} (hc : c.Lawful) {s : Schema}
    (hs : s.template.body.vars = []) : (t : Term) → {w : Worksheet} → w.Valid →
      c.canProve w s t → (c.prove s t).Returns w
  | .app h as, w, hw, hprove => by
    rw [prove]
    refine Returns.bind ⟨w, rfl⟩ (Derives.get (P := c.Makes s)) ?_
    rintro _ w' - ⟨rfl, rfl⟩
    split
    next i hi => exact ⟨i, rfl⟩
    next hnone =>
      rcases canProve_iff.mp hprove with hfind | ⟨hfits, hstates, hopen⟩
      · rw [hnone] at hfind
        cases hfind
      · rw [if_pos hfits]
        refine (proveOpen_returns hc hs s.slots as hw hopen).bind
          (proveOpen_derives c s s.slots as hw) fun steps w'' hext hsteps => ?_
        exact conclude_returns hc hs (hext.valid hw) ⟨hfits, hsteps⟩ hstates

theorem proveOpen_returns {c : ClosureCatalog} (hc : c.Lawful) {s : Schema}
    (hs : s.template.body.vars = []) : (slots : Slots) → (ts : List Term) → {w : Worksheet} →
      w.Valid → (∀ t ∈ slots.openArgs ts, c.canProve w s t) →
      (c.proveOpen s slots ts).Returns w
  | none :: slots, t :: ts, w, hw, hopen => by
    rw [Slots.openArgs] at hopen
    obtain ⟨ht, hts⟩ := List.forall_mem_cons.mp hopen
    rw [proveOpen]
    refine (prove_returns hc hs t hw ht).bind (prove_derives c s t hw) fun i w₁ hext _ => ?_
    have hw₁ := hext.valid hw
    -- The worksheet has grown, but what could be proved can still be proved.
    have hts₁ : ∀ u ∈ Slots.openArgs slots ts, c.canProve w₁ s u := fun u hu =>
      canProve_of_extends hw hext (hts u hu)
    exact (proveOpen_returns hc hs slots ts hw₁ hts₁).bind (proveOpen_derives c s slots ts hw₁)
      fun _ _ _ _ => ⟨_, rfl⟩
  | some c' :: slots, t :: ts, w, hw, hopen => by
    rw [proveOpen]
    exact proveOpen_returns hc hs slots ts hw hopen
  | [], ts, w, hw, hopen => by
    rw [proveOpen]
    · exact ⟨_, rfl⟩
    all_goals simp
  | slot :: slots, [], w, hw, hopen => by
    rw [proveOpen]
    · exact ⟨_, rfl⟩
    all_goals simp

end

/-- A closure proof goes through exactly if `canProve` says so, and the step that it yields is for
the goal. The property is without variables here; the catalog is any one mined from the theory, and
the worksheet any reachable one. -/
theorem canProve_iff_prove_returns {T : Theory} (hT : T.Reachable) {c : ClosureCatalog}
    (hc : c.Mined T) {w : Worksheet} (hw : w.Reachable) {s : Schema}
    (hs : s.template.body.vars = []) (t : Term) :
    (c.canProve w s t = true ↔ ∃ i w', c.prove s t w = (.ok i, w')) ∧
      ∀ i w', c.prove s t w = (.ok i, w') → w'.formula? i = some (s.goal t) := by
  have hlawful := hc.lawful hT
  have hderives := c.prove_derives s t hw.valid
  refine ⟨⟨fun h => (prove_returns hlawful hs t hw.valid h).exists, ?_⟩, fun i w' h =>
    (hderives.of_ok h).2⟩
  rintro ⟨i, w', h⟩
  obtain ⟨hext, hgoal⟩ := hderives.of_ok h
  have hfind := (hext.valid hw.valid).isSome_find?_iff.mpr ⟨i, hgoal⟩
  exact canProve_of_extends_makes hlawful hw.valid hext (canProve_of_find? hfind)

open ClosureRule

/-- From the supposition `x ∈ c` the goal `g(x) ∈ c` is proved. -/
theorem sampleTerm_prove_returns :
    sampleTheory.Reachable ∧ sampleCatalog.Mined sampleTheory ∧ sampleWorksheet.Reachable ∧
      impliedRule.schema.template.body.vars = [] ∧
      ∃ i w', sampleCatalog.prove impliedRule.schema sampleTerm sampleWorksheet = (.ok i, w') ∧
        w'.formula? i = some (impliedRule.schema.goal sampleTerm) := by
  have hvars : impliedRule.schema.template.body.vars = [] := by decide
  have hcan : sampleCatalog.canProve sampleWorksheet impliedRule.schema sampleTerm = true := by
    rw [sampleCatalog, Catalogs.ofTheory, ClosureCatalog.ofTheory, Detachments.ofTheory,
      Conjunctions.ofTheory, assertions_sampleTheory]
    decide +kernel
  obtain ⟨hiff, hgoal⟩ := canProve_iff_prove_returns reachable_sampleTheory mined_sampleCatalog
    reachable_sampleWorksheet hvars sampleTerm
  obtain ⟨i, w', h⟩ := hiff.mp hcan
  exact ⟨reachable_sampleTheory, mined_sampleCatalog, reachable_sampleWorksheet, hvars, i, w', h,
    hgoal i w' h⟩

end Lemmata.ClosureCatalog
