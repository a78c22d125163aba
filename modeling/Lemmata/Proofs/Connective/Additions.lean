import Lemmata.Proofs.Connective.Detachment
import Lemmata.Proofs.Worksheet.Additions

/-!
# What joining and detaching add

To join steps in the pattern of a term adds the conjunctions in the pattern (`concatenate_adds`), and
to detach a consequent adds it and the instance of the implication (`detach_adds`).
-/

namespace Lemmata

open Lemmata.Derivation Lemmata.Worksheet

/-! ## Joining -/

namespace Conjunctions

mutual

/-- The conjunctions in the pattern with its conjuncts replaced, operands first. -/
def joints (c : Conjunctions) : Term → List Term → List Term
  | .app h as, us =>
    match c.rootOf? (.app h as) with
    | some _ => c.jointsList as us ++ [.app h (c.withConjunctsList as us)]
    | none => []

def jointsList (c : Conjunctions) : List Term → List Term → List Term
  | [], _ => []
  | t :: ts, us => c.joints t us ++ c.jointsList ts (us.drop (c.conjuncts t).length)

end

mutual

/-- Joining adds the conjunctions in the pattern, with the formulas of the steps as conjuncts. The
induction goes along the term, as joining does. -/
theorem join_adds (c : Conjunctions) : (p : Term) → (steps : List StepId) → {us : List Term} →
    {w : Worksheet} → w.Valid → steps.map w.formula? = us.map some →
      Derives (fun _ _ _ => True) w (c.join p steps) fun _ w' => w.Adds (· ∈ c.joints p us) w'
  | .app h as, steps, us, w, hw, hus => by
    unfold join
    cases hk : c.rootOf? (.app h as) with
    | none =>
      cases steps with
      | nil => exact .throw _
      | cons i rest =>
        refine .pure (.refl fun f hf => ?_)
        rw [joints, hk] at hf
        cases hf
    | some k =>
      have hformulas := joinList_derives c (fun _ => True) as steps hw hus fun _ _ => trivial
      refine ((joinList_adds c as steps hw hus).and hformulas).bind ?_
      rintro ⟨operands, rest⟩ w₁ hext ⟨hadds, -, -, -, hoperands⟩
      refine (derive_adds (hext.valid hw) _ _ _).bind fun i w₂ _ hadd => .pure ?_
      refine (hadds.trans hadd).congr fun f => ?_
      rw [joints, hk, List.mem_append, List.mem_singleton, hoperands]

theorem joinList_adds (c : Conjunctions) : (ps : List Term) → (steps : List StepId) →
    {us : List Term} → {w : Worksheet} → w.Valid → steps.map w.formula? = us.map some →
      Derives (fun _ _ _ => True) w (c.joinList ps steps) fun _ w' =>
        w.Adds (· ∈ c.jointsList ps us) w'
  | [], steps, us, w, _, _ => by
    rw [joinList]
    exact .pure (.refl fun f hf => nomatch hf)
  | p :: ps, steps, us, w, hw, hus => by
    rw [joinList]
    have hformula := join_derives c (fun _ => True) p steps hw hus fun _ _ => trivial
    refine ((join_adds c p steps hw hus).and hformula).bind ?_
    rintro ⟨i, rest⟩ w₁ hext ⟨hadds, -, rfl, hi⟩
    refine (formula_derives i).bind ?_
    rintro f w₂ - ⟨rfl, -⟩
    have hrest : (steps.drop (c.conjuncts p).length).map w₂.formula? =
        (us.drop (c.conjuncts p).length).map some := by
      rw [List.map_drop, List.map_drop, hext.map_formula? hus]
    refine (joinList_adds c ps _ (hext.valid hw) hrest).bind fun _ w₃ _ hadds' => .pure ?_
    refine (hadds.trans hadds').congr fun g => ?_
    rw [jointsList, List.mem_append]

end

/-- Joining steps adds the conjunctions in the pattern. -/
theorem concatenate_adds (c : Conjunctions) (p : Term) {steps : List StepId} {us : List Term}
    {w : Worksheet} (hw : w.Valid) (hus : steps.map w.formula? = us.map some) :
    Derives (fun _ _ _ => True) w (c.concatenate steps p) fun _ w' =>
      w.Adds (· ∈ c.joints p us) w' := by
  refine (join_adds c p steps hw hus).bind ?_
  rintro ⟨i, rest⟩ w' - hadds
  dsimp only
  split
  · exact .pure hadds
  · exact .throw _

mutual

/-- The conjunctions in a pattern are conjunctions of what its conjuncts are replaced by. -/
theorem joint_of_mem_joints (c : Conjunctions) {G : Term → Prop} : (p : Term) → (us : List Term) →
    (∀ u ∈ us, G u) → (c.conjuncts p).length ≤ us.length → ∀ f ∈ c.joints p us,
      ∃ h fs k, f = .app h fs ∧ c.rootOf? (.app h fs) = some k ∧ ∀ g ∈ fs, c.Joint G g
  | .app h as, us, hus, hlen, f, hf => by
    cases hk : c.rootOf? (.app h as) with
    | none =>
      rw [joints, hk] at hf
      cases hf
    | some k =>
      rw [conjuncts_of_rootOf?_some hk] at hlen
      rw [joints, hk] at hf
      rcases List.mem_append.mp hf with hf | hf
      · exact joint_of_mem_jointsList c as us hus hlen f hf
      · cases List.mem_singleton.mp hf
        refine ⟨h, _, k, rfl, ?_, ?_⟩
        · rw [c.rootOf?_congr h (length_withConjunctsList c as us), hk]
        · exact joint_withConjunctsList (fun p _ => joint_withConjuncts p) hus hlen

theorem joint_of_mem_jointsList (c : Conjunctions) {G : Term → Prop} : (ps : List Term) →
    (us : List Term) → (∀ u ∈ us, G u) → (ps.flatMap c.conjuncts).length ≤ us.length →
      ∀ f ∈ c.jointsList ps us,
        ∃ h fs k, f = .app h fs ∧ c.rootOf? (.app h fs) = some k ∧ ∀ g ∈ fs, c.Joint G g
  | [], us, hus, hlen, f, hf => nomatch hf
  | p :: ps, us, hus, hlen, f, hf => by
    rw [List.flatMap_cons, List.length_append] at hlen
    rw [jointsList] at hf
    rcases List.mem_append.mp hf with hf | hf
    · exact joint_of_mem_joints c p us hus (by omega) f hf
    · refine joint_of_mem_jointsList c ps _ (fun u hu => hus u (List.mem_of_mem_drop hu)) ?_ f hf
      rw [List.length_drop]
      omega

end

end Conjunctions

/-! ## Detaching -/

namespace Detachments

/-- What a detachment that goes through has done: it has entered the instance of the implication and
then its consequent. -/
theorem detach_eq_ok {d : Detachments} {i j : StepId} {consequent : Term} {a : Assertion}
    {w w' : Worksheet} (h : d.detach i consequent a w = (.ok j, w')) :
    ∃ s p mp σ k, d.Fires a w i s p mp σ ∧
      Substitution.ofMatch? p (σ.apply p) = some σ ∧ σ.Binds consequent ∧
      ∃ u, w.enter (.binary s (σ.apply p) (σ.apply consequent)) (.assertion a []) = (k, u) ∧
        u.enter (σ.apply consequent) (.assertion mp [i, k]) = (j, w') := by
  rw [detach] at h
  cases himp : d.implication? a with
  | none =>
    rw [himp] at h
    cases h
  | some r =>
    obtain ⟨s, p, mp⟩ := r
    rw [himp] at h
    obtain ⟨f, hf, h⟩ := run_formula_bind_eq_ok_iff.mp h
    cases hσ : Substitution.ofMatch? p f with
    | none =>
      rw [hσ] at h
      cases h
    | some σ =>
      obtain ⟨hord, hcov, rfl⟩ := Substitution.ofMatch?_sound hσ
      cases hfree : consequent.vars.find? fun v => (σ.get? v).isNone with
      | some v =>
        simp only [hσ, hfree] at h
        cases h
      | none =>
        simp only [hσ, hfree] at h
        obtain ⟨k, u, hmajor, h⟩ := run_bind_eq_ok_iff.mp h
        have hbinds := Substitution.find?_vars_eq_none_iff.mp hfree
        exact ⟨s, p, mp, σ, k, ⟨himp, hord, hcov, hf⟩, hσ, hbinds, u,
          (derive_eq_ok_iff.mp hmajor).2, (derive_eq_ok_iff.mp h).2⟩

/-- Detaching adds the instance of the implication and its consequent. -/
theorem detach_adds (d : Detachments) (i : StepId) (consequent : Term) (a : Assertion)
    {w : Worksheet} (hw : w.Valid) :
    Derives (fun _ _ _ => True) w (d.detach i consequent a) fun _ w' =>
      ∃ s p mp σ, d.Fires a w i s p mp σ ∧
        w.Adds (fun f => f = .binary s (σ.apply p) (σ.apply consequent) ∨ f = σ.apply consequent)
          w' := by
  have hderives := d.detach_derives i consequent a hw
  refine ⟨hderives.extend.mono fun _ _ _ _ _ => trivial, fun j hj => ?_⟩
  obtain ⟨s, p, mp, σ, k, hfires, -, -, u, hmajor, hresult⟩ := detach_eq_ok (Prod.ext hj rfl)
  refine ⟨s, p, mp, σ, hfires, ?_⟩
  have hspec := enter_spec (P := fun _ _ _ => True) hw (j := .assertion a [])
    (f := .binary s (σ.apply p) (σ.apply consequent)) fun _ => trivial
  have hadds := enter_adds hw (.binary s (σ.apply p) (σ.apply consequent)) (.assertion a [])
  rw [hmajor] at hadds hspec
  have hadds' := enter_adds (hspec.1.valid hw) (σ.apply consequent) (.assertion mp [i, k])
  rw [hresult] at hadds'
  exact hadds.trans hadds'

end Detachments

end Lemmata
