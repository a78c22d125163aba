import Lemmata.Proofs.Closure.Soundness
import Lemmata.Proofs.Worksheet.Additions
import Lemmata.Proofs.Worksheet.Reachable

/-!
# Closure proofs are conservative

A closure proof leaves more on the worksheet than its goal: goals for inner arguments, conjunctions,
instances of implications. All of it stands among the formulas that later proofs look for. Still
nothing can be proved afterwards that could not be proved before (`prove_conservative`).

One step shows it (`Makes.canProve`). If a step says that some term has the property, the term could
be shown to have it before the step. For goals this is because their open arguments have steps
already. A conjunction of goals, or an implication between such formulas, says it of no term at all:
both its operands are as large as the property itself, and in a filled property the arguments beside
the hole are smaller. The consequent that is detached is the goal it was detached for, even if the
property mentions variables, because the rules are so shallow that a variable beside the hole would
have to stay as it is.
-/

namespace Lemmata

open Lemmata.Derivation Lemmata.Worksheet

namespace ClosureCatalog

/-! ## What can be proved -/

/-- The open arguments are decided one by one. -/
theorem canProveOpen_iff {c : ClosureCatalog} {w : Worksheet} {s : Schema} {slots : Slots}
    {ts : List Term} :
    c.canProveOpen w s slots ts ↔ ∀ t ∈ slots.openArgs ts, c.canProve w s t := by
  induction slots generalizing ts with
  | nil => cases ts <;> simp [canProveOpen, Slots.openArgs]
  | cons slot slots ih =>
    cases ts with
    | nil => cases slot <;> simp [canProveOpen, Slots.openArgs]
    | cons t ts => cases slot <;> simp [canProveOpen, Slots.openArgs, ih]

/-- A term can be proved to have the property if a step says so, or if it fits a schema that is
stated and its open arguments can. -/
theorem canProve_iff {c : ClosureCatalog} {w : Worksheet} {s : Schema} {t : Term} :
    c.canProve w s t ↔ (w.find? (s.goal t)).isSome ∨
      s.fits t ∧ c.states s ∧ ∀ u ∈ s.openArgs t, c.canProve w s u := by
  cases t with
  | app h as =>
    rw [canProve, Bool.or_eq_true, Bool.and_eq_true, Bool.and_eq_true, canProveOpen_iff, and_assoc]
    rfl

/-- What has a step can be proved. -/
theorem canProve_of_find? {c : ClosureCatalog} {w : Worksheet} {s : Schema} {t : Term}
    (h : (w.find? (s.goal t)).isSome) : c.canProve w s t :=
  canProve_iff.mpr (.inl h)

/-- What can be proved on one worksheet can be proved on another if the steps of the one can be
proved on the other. -/
theorem canProve_mono {c : ClosureCatalog} {w w' : Worksheet} {s : Schema}
    (h : ∀ t, (w.find? (s.goal t)).isSome → c.canProve w' s t) {t : Term}
    (ht : c.canProve w s t) : c.canProve w' s t := by
  induction t with
  | app f as ih =>
    rcases canProve_iff.mp ht with hfind | ⟨hfits, hstates, hopen⟩
    · exact h _ hfind
    · refine canProve_iff.mpr (.inr ⟨hfits, hstates, fun u hu => ?_⟩)
      exact ih u (Slots.mem_of_mem_openArgs hu) (hopen u hu)

/-- What can be proved stays so when steps are added. -/
theorem canProve_of_extends {c : ClosureCatalog} {w w' : Worksheet} {s : Schema} {t : Term}
    {P : Worksheet → Term → Justification → Prop} (hw : w.Valid) (h : w.Extends P w')
    (ht : c.canProve w s t) : c.canProve w' s t :=
  canProve_mono (fun _ hu => canProve_of_find? (h.isSome_find? hw hu)) ht

/-! ## One step -/

/-- The goal for a supported term could be proved. -/
theorem canProve_of_supports {c : ClosureCatalog} (hc : c.Lawful) {s : Schema} {w : Worksheet}
    (hw : w.Valid) {t : Term} {steps : List StepId} (h : s.Supports w t steps)
    {kind : ClosureKind} {a : Assertion} (ha : c.assertion? kind s = some a) : c.canProve w s t :=
  canProve_iff.mpr (.inr ⟨h.fits, hc.states_iff.mpr ⟨kind, a, ha⟩, fun _ hu =>
    canProve_of_find? (h.isSome_find? hw hu)⟩)

/-- The substitution under which an implication rule is detached leaves the property alone and binds
the variables of the rule to the open arguments. -/
theorem Joins.bindings {c : ClosureCatalog} (hc : c.Lawful) {s : Schema} {w : Worksheet}
    {t p q : Term} {i : StepId} (hjoin : c.Joins s w t p i) (hdepth : q.depth ≤ 3)
    {vs : List Serial} {subjects args : List Term}
    (hstated : s.Stated (c.conjunctions.conjuncts p) q vs subjects args) {σ : Substitution}
    (hcov : σ.Covers p) (hσ : w.formula? i = some (σ.apply p)) :
    s.template.FixedBy σ ∧ vs.map σ.get? = (s.openArgs t).map some := by
  have hlen : (c.conjunctions.conjuncts p).length = ((s.openArgs t).map s.goal).length := by
    rw [hjoin.length, List.length_map]
  have heq := Option.some.inj (hjoin.formula.symm.trans hσ)
  have hgoals := (Conjunctions.withConjuncts_eq_apply_iff hc.conjunctions σ p _
    (Nat.le_of_eq hlen)).mp heq
  rw [hlen, List.take_length] at hgoals
  exact hstated.fixedBy_of_instance hdepth (fun u => hc.conjunctions.covers_iff.mp hcov u)
    hgoals.symm

/-- The consequent of an implication rule becomes the goal that it is detached for. -/
theorem Joins.apply_eq {c : ClosureCatalog} (hc : c.Lawful) {s : Schema} {w : Worksheet}
    {t p q : Term} (ht : s.fits t) {i : StepId} (hjoin : c.Joins s w t p i) (hdepth : q.depth ≤ 3)
    {vs : List Serial} {subjects args : List Term}
    (hstated : s.Stated (c.conjunctions.conjuncts p) q vs subjects args) {σ : Substitution}
    (hcov : σ.Covers p) (hσ : w.formula? i = some (σ.apply p)) : σ.apply q = s.goal t := by
  obtain ⟨hfixed, hget⟩ := hjoin.bindings hc hdepth hstated hcov hσ
  exact hstated.apply_conclusion hfixed ht hget

/-- Conjunctions of goals are at least as large as the property. -/
theorem size_le_of_joint {c : ClosureCatalog} (hc : c.Lawful) {s : Schema}
    (hs : s.template.Proper) {f : Term}
    (hf : c.conjunctions.Joint (fun g => ∃ t, g = s.goal t) f) : s.template.body.size ≤ f.size := by
  refine hf.size_le hc.conjunctions ?_
  rintro g ⟨t, rfl⟩
  exact hs.size_le_fill t

/-- Each conjunct of what is joined is a goal, so the formula is at least as large as the template.
-/
theorem Joins.size_le {c : ClosureCatalog} (hc : c.Lawful) {s : Schema} (hs : s.template.Proper)
    {w : Worksheet} {t p : Term} {i : StepId} (hjoin : c.Joins s w t p i) {f : Term}
    (hf : w.formula? i = some f) : s.template.body.size ≤ f.size := by
  cases Option.some.inj (hf.symm.trans hjoin.formula)
  refine size_le_of_joint hc hs (Conjunctions.joint_withConjuncts p _ (fun g hg => ?_) ?_)
  · exact (List.mem_map.mp hg).imp fun u hu => hu.2.symm
  · exact Nat.le_of_eq (by rw [hjoin.length, List.length_map])

/-- What a step of a closure proof says of a term could be proved before. -/
theorem Makes.canProve {c : ClosureCatalog} (hc : c.Lawful) {s : Schema} {w : Worksheet}
    (hw : w.Valid) {f : Term} {j : Justification} (h : c.Makes s w f j) {k : Term}
    (hk : s.goal k = f) : c.canProve w s k := by
  cases h with
  | goal ha hsupp _ =>
    obtain ⟨_, _, _, hstated⟩ := hc.backs_of_assertion? ha
    cases hstated.proper.fill_injective hk
    exact canProve_of_supports hc hw hsupp ha
  | conjoin ha hstep =>
    obtain ⟨-, _, _, _, -, -, -, _, _, _, hstated⟩ := hc.backs_of_assertion? ha
    cases hstep with
    | intro hroot hjoint _ =>
      -- The operands of a conjunction are goals or conjunctions, too large for an argument of one goal.
      have hlen := (hc.conjunctions.of_rootOf? hroot).1
      refine absurd hk (hstated.proper.fill_ne_app hlen (fun g hg => ?_) k)
      exact size_le_of_joint hc hstated.proper (hjoint g hg)
  | @detach a t p q steps i f j ha hsupp hp hq hjoin hstep =>
    obtain ⟨-, _, _, _, hconcl, -, hdepth, _, _, _, hstated⟩ := hc.backs_of_assertion? ha
    rw [hconcl] at hp hq
    cases hp
    cases hq
    cases hstep with
    | major hfires =>
      -- Nor is the instance of the implication a goal, for the same reason.
      cases hfires.eq_antecedent hconcl
      have hresult := hjoin.apply_eq hc hsupp.fits hdepth hstated hfires.covers hfires.antecedent
      rw [hresult] at hk
      refine absurd hk (hstated.proper.fill_ne_app (by simp) (fun g hg => ?_) k)
      rcases List.mem_pair.mp hg with rfl | rfl
      · exact hjoin.size_le hc hstated.proper hfires.antecedent
      · exact hstated.proper.size_le_fill t
    | result hfires _ =>
      cases hfires.eq_antecedent hconcl
      have hresult := hjoin.apply_eq hc hsupp.fits hdepth hstated hfires.covers hfires.antecedent
      cases hstated.proper.fill_injective (hk.trans hresult)
      exact canProve_of_supports hc hw hsupp ha

/-! ## Whole proofs -/

/-- Steps of closure proofs make nothing provable. -/
theorem canProve_of_extends_makes {c : ClosureCatalog} (hc : c.Lawful) {s : Schema}
    {w w' : Worksheet} (hw : w.Valid) (h : w.Extends (c.Makes s) w') {t : Term}
    (ht : c.canProve w' s t) : c.canProve w s t := by
  induction h generalizing t with
  | refl => exact ht
  | @step u f j hext hnew hstep ih =>
    refine ih (canProve_mono (fun k hk => ?_) ht)
    have hu := hext.valid hw
    rw [(hu.append hnew j).isSome_find?_iff] at hk
    rcases proves_append.mp hk with hproved | hgoal
    · exact canProve_of_find? (hu.isSome_find?_iff.mpr hproved)
    · exact hstep.canProve hc hu hgoal

/-- After a closure proof, whether it went through or stopped, the same terms can be proved to have
the property as before, and whatever the worksheet says of a term then could be proved before. -/
theorem prove_conservative {T : Theory} (hT : T.Reachable) {c : ClosureCatalog} (hc : c.Mined T)
    {w : Worksheet} (hw : w.Reachable) (s : Schema) (m n : Term) :
    c.canProve (c.prove s m w).2 s n = c.canProve w s n ∧
      ∀ k, ((c.prove s m w).2.find? (s.goal k)).isSome → c.canProve w s k := by
  have hext := (c.prove_derives s m hw.valid).extend
  have hback : ∀ t, c.canProve (c.prove s m w).2 s t → c.canProve w s t := fun t =>
    canProve_of_extends_makes (hc.lawful hT) hw.valid hext
  refine ⟨Bool.eq_iff_iff.mpr ⟨hback n, canProve_of_extends hw.valid hext⟩, fun k hk => ?_⟩
  exact hback k (canProve_of_find? hk)

open ClosureRule

theorem reachable_sampleWorksheet : sampleWorksheet.Reachable :=
  .suppose _ .empty

/-- The proof of `g(x) ∈ c` from `x ∈ c` makes nothing else provable. -/
theorem sampleTerm_conservative :
    sampleTheory.Reachable ∧ sampleCatalog.Mined sampleTheory ∧ sampleWorksheet.Reachable ∧
      sampleCatalog.canProve (sampleCatalog.prove impliedRule.schema sampleTerm sampleWorksheet).2
          impliedRule.schema (sampleProperty sampleVar) =
        sampleCatalog.canProve sampleWorksheet impliedRule.schema (sampleProperty sampleVar) ∧
      ∀ k, ((sampleCatalog.prove impliedRule.schema sampleTerm sampleWorksheet).2.find?
          (impliedRule.schema.goal k)).isSome →
        sampleCatalog.canProve sampleWorksheet impliedRule.schema k :=
  ⟨reachable_sampleTheory, mined_sampleCatalog, reachable_sampleWorksheet,
    prove_conservative reachable_sampleTheory mined_sampleCatalog reachable_sampleWorksheet
      impliedRule.schema sampleTerm (sampleProperty sampleVar)⟩

end ClosureCatalog

end Lemmata
